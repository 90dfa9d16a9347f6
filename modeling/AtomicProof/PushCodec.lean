/-
The push codec is exact.

`ScriptCodec` reads and writes six forms of push.  One payload has several structural encodings
and exactly one canonical one.  The forms are written down here as a grammar, independently of the
code that reads them; the decoder is then shown to accept exactly the grammar, and the encoders to
write words of it.

Main definitions:

* `ScriptCodec.PushGrammar` — the encodings of a payload in each form;
* `ScriptCodec.legacySerializedPushSize` — the size of a legacy push, computed without writing it;
* `ScriptCodec.decodePushPrefixReads` — the decoder with every access to its input checked.

Main results:

* `ScriptCodec.decodePushPrefix_false_iff` — **the structural decoder accepts the grammar**, and
  leaves whatever follows alone;
* `ScriptCodec.decodePushPrefix_true_iff` — the canonical decoder accepts what the canonical
  encoder writes;
* `ScriptCodec.decodePushPrefixReads_eq` — no access leaves the input;
* `ScriptCodec.pushCodec_exact` — **the codec is exact**.
-/

import AtomicProof.ScriptCodec

set_option autoImplicit false

namespace AtomicProof.ScriptCodec

/-! ### Length fields -/

@[simp] theorem littleEndian_length (value byteCount : ℕ) :
    (littleEndian value byteCount).length = byteCount := by
  simp [littleEndian]

theorem littleEndian_succ (value byteCount : ℕ) :
    littleEndian value (byteCount + 1) =
      UInt8.ofNat value :: littleEndian (value / 256) byteCount := by
  simp only [littleEndian, List.range_succ_eq_map, List.map_cons, List.map_map, pow_zero,
    Nat.div_one, List.cons.injEq, true_and]
  refine List.map_congr_left ?_
  intro i _
  simp only [Function.comp_apply, Nat.succ_eq_add_one, pow_succ, Nat.div_div_eq_div_mul,
    Nat.mul_comm]

theorem leNat_littleEndian {value byteCount : ℕ} (h : value < 256 ^ byteCount) :
    leNat (littleEndian value byteCount) = value := by
  induction byteCount generalizing value with
  | zero =>
      obtain rfl : value = 0 := by simpa using h
      rfl
  | succ byteCount ih =>
      have hdiv : value / 256 < 256 ^ byteCount := by
        rw [Nat.div_lt_iff_lt_mul (by omega), ← pow_succ]
        exact h
      rw [littleEndian_succ, leNat_cons, ih hdiv, UInt8.toNat_ofNat']
      omega

theorem littleEndian_leNat (bs : Bytes) : littleEndian (leNat bs) bs.length = bs := by
  induction bs with
  | nil => rfl
  | cons b bs ih =>
      have hb : b.toNat < 256 := b.toNat_lt
      have hdiv : (b.toNat + 256 * leNat bs) / 256 = leNat bs := by omega
      have hbyte : UInt8.ofNat (b.toNat + 256 * leNat bs) = b := by
        rw [← UInt8.toNat_inj, UInt8.toNat_ofNat']
        omega
      rw [List.length_cons, leNat_cons, littleEndian_succ, hdiv, ih, hbyte]

/-! ### The grammar -/

/-- The opcode of a form with a length field, and the width of that field. -/
def lengthField : PushForm → Option (UInt8 × ℕ)
  | .pushData1 => some (0x4c, 1)
  | .pushData2 => some (0x4d, 2)
  | .pushData4 => some (0x4e, 4)
  | _ => none

/-- The push grammar: the encodings of a payload in each form. -/
inductive PushGrammar : PushForm → Bytes → Bytes → Prop
  | op0 : PushGrammar .op0 [0x00] []
  | negativeOne : PushGrammar .smallInteger [0x4f] [0x81]
  | smallInteger (n : UInt8) : 0x01 ≤ n → n ≤ 0x10 → PushGrammar .smallInteger [0x50 + n] [n]
  | direct (payload : Bytes) : payload ≠ [] → payload.length ≤ 75 →
      PushGrammar .direct (UInt8.ofNat payload.length :: payload) payload
  | pushData {form : PushForm} {opcode : UInt8} {width : ℕ} (payload : Bytes) :
      lengthField form = some (opcode, width) → payload.length < 256 ^ width →
      PushGrammar form (opcode :: (littleEndian payload.length width ++ payload)) payload

variable {form : PushForm} {opcode : UInt8} {encoding payload bytes : Bytes} {decoded : DecodedPush}
  {policy : PushEncodingPolicy}

theorem lengthField_cases {width : ℕ} (h : lengthField form = some (opcode, width)) :
    (form = .pushData1 ∧ opcode = 0x4c ∧ width = 1) ∨
      (form = .pushData2 ∧ opcode = 0x4d ∧ width = 2) ∨
        (form = .pushData4 ∧ opcode = 0x4e ∧ width = 4) := by
  cases form <;> simp_all [lengthField]

/-! ### What the header says -/

theorem pushHeader_pushData {width : ℕ}
    (h : lengthField form = some (opcode, width)) (rest : Bytes) :
    pushHeader (opcode :: rest) =
      if rest.length < width then .error .truncatedLength
      else .ok ⟨form, 1 + width, leNat (rest.take width), []⟩ := by
  rcases lengthField_cases h with ⟨rfl, rfl, rfl⟩ | ⟨rfl, rfl, rfl⟩ | ⟨rfl, rfl, rfl⟩ <;> rfl

theorem pushHeader_direct (h0 : opcode ≠ 0x00) (h : opcode ≤ 0x4b)
    (rest : Bytes) : pushHeader (opcode :: rest) = .ok ⟨.direct, 1, opcode.toNat, []⟩ := by
  simp [pushHeader, h0, h]

theorem pushHeader_smallInteger (hlo : 0x51 ≤ opcode) (hhi : opcode ≤ 0x60) (rest : Bytes) :
    pushHeader (opcode :: rest) = .ok ⟨.smallInteger, 1, 0, [opcode - 0x50]⟩ := by
  obtain ⟨h0, h1, h2, h3, h4, h5⟩ : opcode ≠ 0x00 ∧ ¬ opcode ≤ 0x4b ∧ opcode ≠ 0x4c ∧
      opcode ≠ 0x4d ∧ opcode ≠ 0x4e ∧ opcode ≠ 0x4f := by
    grind
  simp only [pushHeader, h0, h1, h2, h3, h4, h5, hlo, hhi, if_true, if_false, and_self]

theorem opcode_cases (opcode : UInt8) :
    opcode = 0x00 ∨ (opcode ≠ 0x00 ∧ opcode ≤ 0x4b) ∨
      (∃ form width, lengthField form = some (opcode, width)) ∨ opcode = 0x4f ∨
        (0x51 ≤ opcode ∧ opcode ≤ 0x60) ∨ opcode = 0x50 ∨ 0x60 < opcode := by
  by_cases h : opcode = 0x4c ∨ opcode = 0x4d ∨ opcode = 0x4e
  · refine .inr (.inr (.inl ?_))
    rcases h with rfl | rfl | rfl
    · exact ⟨.pushData1, 1, rfl⟩
    · exact ⟨.pushData2, 2, rfl⟩
    · exact ⟨.pushData4, 4, rfl⟩
  · grind

theorem pushHeader_notPush (h : opcode = 0x50 ∨ 0x60 < opcode) (rest : Bytes) :
    pushHeader (opcode :: rest) = .error .notPush := by
  rcases h with rfl | h
  · rfl
  · obtain ⟨h0, h1, h2, h3, h4, h5, h6⟩ : opcode ≠ 0x00 ∧ ¬ opcode ≤ 0x4b ∧ opcode ≠ 0x4c ∧
        opcode ≠ 0x4d ∧ opcode ≠ 0x4e ∧ opcode ≠ 0x4f ∧ ¬ opcode ≤ 0x60 := by
      grind
    simp only [pushHeader, h0, h1, h2, h3, h4, h5, h6, if_false, and_false]

/-! ### The structural decoder -/

theorem decodePushPrefix_of_error {error : ScriptCodecError}
    (h : pushHeader encoding = .error error) (requireCanonical : Bool) :
    decodePushPrefix encoding requireCanonical = .error error := by
  simp only [decodePushPrefix, h, bind, Except.bind]

theorem decodePushPrefix_of_header {headerSize size : ℕ}
    (h : pushHeader encoding = .ok ⟨form, headerSize, size, []⟩) :
    decodePushPrefix encoding false =
      if encoding.length - headerSize < size then .error .truncatedPayload
      else .ok ⟨(encoding.drop headerSize).take size, form, headerSize + size⟩ := by
  simp only [decodePushPrefix, h, bind, Except.bind, List.isEmpty_nil, if_true, Bool.false_and,
    Bool.false_eq_true, if_false]
  split_ifs <;> rfl

theorem decodePushPrefix_of_synthetic {value : UInt8}
    (h : pushHeader encoding = .ok ⟨form, 1, 0, [value]⟩) :
    decodePushPrefix encoding false = .ok ⟨[value], form, 1⟩ := by
  simp [decodePushPrefix, h, bind, Except.bind, pure, Except.pure]

theorem decodePushPrefix_true (encoding : Bytes) :
    decodePushPrefix encoding true =
      (decodePushPrefix encoding false).bind fun decoded =>
        if encodePush decoded.payload .canonical = some (encoding.take decoded.encodedSize) then
          .ok decoded
        else .error .nonMinimalPush := by
  simp only [decodePushPrefix, bind, Except.bind]
  cases pushHeader encoding with
  | error error => rfl
  | ok header =>
      simp only [Bool.true_and, Bool.false_and, Bool.false_eq_true, if_false, bne_iff_ne, ne_eq]
      split_ifs <;> simp_all [pure, Except.pure, throw, throwThe, MonadExceptOf.throw]

/-- **Every word of the grammar is decoded**, whatever follows it. -/
theorem decodePushPrefix_of_grammar (h : PushGrammar form encoding payload) (rest : Bytes) :
    decodePushPrefix (encoding ++ rest) false = .ok ⟨payload, form, encoding.length⟩ := by
  cases h with
  | op0 =>
      have hheader : pushHeader ([0x00] ++ rest) = .ok ⟨.op0, 1, 0, []⟩ := rfl
      simpa using decodePushPrefix_of_header hheader
  | negativeOne =>
      have hheader : pushHeader ([0x4f] ++ rest) = .ok ⟨.smallInteger, 1, 0, [0x81]⟩ := rfl
      exact decodePushPrefix_of_synthetic hheader
  | smallInteger n hlo hhi =>
      have hrange : 0x51 ≤ 0x50 + n ∧ 0x50 + n ≤ 0x60 ∧ 0x50 + n - 0x50 = n := by
        grind
      have hheader := pushHeader_smallInteger hrange.1 hrange.2.1 rest
      rw [hrange.2.2] at hheader
      exact decodePushPrefix_of_synthetic hheader
  | direct _ hne hlen =>
      have hpos : 0 < payload.length := List.length_pos_iff.2 hne
      have hnat : (UInt8.ofNat payload.length).toNat = payload.length := by
        rw [UInt8.toNat_ofNat']
        omega
      have h0 : UInt8.ofNat payload.length ≠ 0x00 := by
        rw [ne_eq, ← UInt8.toNat_inj, hnat]
        simp
        omega
      have hle : UInt8.ofNat payload.length ≤ 0x4b := by
        rw [UInt8.le_iff_toNat_le, hnat]
        exact hlen
      rw [List.cons_append, decodePushPrefix_of_header (pushHeader_direct h0 hle _), hnat]
      simp [Nat.add_comm 1]
  | pushData _ hfield hlen =>
      rename_i opcode width
      have htake : ((littleEndian payload.length width ++ payload) ++ rest).take width =
          littleEndian payload.length width := by
        rw [List.append_assoc, List.take_left' (littleEndian_length _ _)]
      have hheader := pushHeader_pushData hfield ((littleEndian payload.length width ++ payload)
        ++ rest)
      rw [if_neg (by simp), htake, leNat_littleEndian hlen] at hheader
      rw [List.cons_append, decodePushPrefix_of_header hheader, if_neg (by simp; omega)]
      have hdrop : (opcode :: (littleEndian payload.length width ++ payload ++ rest)).drop
          (1 + width) = payload ++ rest := by
        rw [Nat.add_comm, List.drop_succ_cons, List.append_assoc,
          List.drop_left' (littleEndian_length _ _)]
      have hsize : 1 + width + payload.length =
          (opcode :: (littleEndian payload.length width ++ payload)).length := by
        simp only [List.length_cons, List.length_append, littleEndian_length]
        omega
      rw [hdrop, List.take_left, hsize]

/-- **Nothing else is decoded.** -/
theorem grammar_of_decodePushPrefix (h : decodePushPrefix encoding false = .ok decoded) :
    decoded.encodedSize ≤ encoding.length ∧
      PushGrammar decoded.form (encoding.take decoded.encodedSize) decoded.payload := by
  match encoding with
  | [] =>
      have hheader : pushHeader [] = .error .emptyInput := rfl
      simp [decodePushPrefix_of_error hheader] at h
  | opcode :: bytes =>
      -- one case for each header the decoder knows
      rcases opcode_cases opcode with rfl | ⟨h0, hle⟩ | ⟨form, width, hfield⟩ | rfl |
        ⟨hlo, hhi⟩ | hnot
      · have hheader : pushHeader (0x00 :: bytes) = .ok ⟨.op0, 1, 0, []⟩ := rfl
        rw [decodePushPrefix_of_header hheader] at h
        simp only [Nat.not_lt_zero, if_false, Except.ok.injEq] at h
        subst h
        exact ⟨by simp, .op0⟩
      -- a direct push
      · rw [decodePushPrefix_of_header (pushHeader_direct h0 hle bytes)] at h
        simp only [List.length_cons, Nat.add_sub_cancel, List.drop_succ_cons, List.drop_zero] at h
        split_ifs at h with hlen
        obtain rfl := Except.ok.inj h
        have htake : (bytes.take opcode.toNat).length = opcode.toNat := by
          rw [List.length_take]
          omega
        have hne : opcode.toNat ≠ 0 := by
          intro hzero
          exact h0 (UInt8.toNat_inj.1 hzero)
        have hgrammar : PushGrammar .direct _ (bytes.take opcode.toNat) :=
          .direct _ (by intro hnil; rw [hnil] at htake; exact hne htake.symm)
            (by rw [htake]; exact hle)
        rw [htake, UInt8.ofNat_toNat] at hgrammar
        refine ⟨by simp; omega, ?_⟩
        simpa [Nat.add_comm 1] using hgrammar
      -- a push with a length field
      · have hheader := pushHeader_pushData hfield bytes
        by_cases hshort : bytes.length < width
        · rw [if_pos hshort] at hheader
          simp [decodePushPrefix_of_error hheader] at h
        · rw [if_neg hshort] at hheader
          rw [decodePushPrefix_of_header hheader] at h
          split_ifs at h with hlen
          obtain rfl := Except.ok.inj h
          simp only [List.length_cons] at hlen ⊢
          have hwidth : (bytes.take width).length = width := by
            rw [List.length_take]
            omega
          have hdrop : (opcode :: bytes).drop (1 + width) = bytes.drop width := by
            rw [Nat.add_comm, List.drop_succ_cons]
          have hpayload : ((bytes.drop width).take (leNat (bytes.take width))).length =
              leNat (bytes.take width) := by
            rw [List.length_take, List.length_drop]
            omega
          have hbound := leNat_lt (bytes.take width)
          rw [hwidth] at hbound
          have hsize : 1 + width + leNat (bytes.take width) =
              width + leNat (bytes.take width) + 1 := by omega
          have hgrammar : PushGrammar form _ ((bytes.drop width).take (leNat (bytes.take width))) :=
            .pushData _ hfield (by rw [hpayload]; exact hbound)
          have hfieldBytes := littleEndian_leNat (bytes.take width)
          rw [hwidth] at hfieldBytes
          rw [hpayload, hfieldBytes, ← List.take_add] at hgrammar
          rw [hdrop, hsize, List.take_succ_cons]
          exact ⟨by omega, hgrammar⟩
      · have hheader : pushHeader (0x4f :: bytes) = .ok ⟨.smallInteger, 1, 0, [0x81]⟩ := rfl
        rw [decodePushPrefix_of_synthetic hheader] at h
        obtain rfl := Except.ok.inj h
        exact ⟨by simp, .negativeOne⟩
      · rw [decodePushPrefix_of_synthetic (pushHeader_smallInteger hlo hhi bytes)] at h
        obtain rfl := Except.ok.inj h
        have hrange : 0x01 ≤ opcode - 0x50 ∧ opcode - 0x50 ≤ 0x10 ∧
            0x50 + (opcode - 0x50) = opcode := by
          grind
        have hgrammar := PushGrammar.smallInteger _ hrange.1 hrange.2.1
        rw [hrange.2.2] at hgrammar
        exact ⟨by simp, hgrammar⟩
      · rw [decodePushPrefix_of_error (pushHeader_notPush hnot bytes)] at h
        simp at h

/-- **The structural decoder accepts the push grammar**, and looks at nothing behind the push. -/
theorem decodePushPrefix_false_iff : decodePushPrefix encoding false = .ok decoded ↔
      ∃ push rest, encoding = push ++ rest ∧ decoded.encodedSize = push.length ∧
        PushGrammar decoded.form push decoded.payload := by
  constructor
  · intro h
    obtain ⟨hle, hgrammar⟩ := grammar_of_decodePushPrefix h
    exact ⟨encoding.take decoded.encodedSize, encoding.drop decoded.encodedSize,
      (List.take_append_drop _ _).symm, by rw [List.length_take]; omega, hgrammar⟩
  · rintro ⟨push, rest, rfl, hsize, hgrammar⟩
    rw [decodePushPrefix_of_grammar hgrammar rest, ← hsize]

/-- The decoder finds no push exactly at an opcode that begins none. -/
theorem decodePushPrefix_notPush_iff : decodePushPrefix encoding false = .error .notPush ↔
      ∃ opcode rest, encoding = opcode :: rest ∧ (opcode = 0x50 ∨ 0x60 < opcode) := by
  constructor
  · intro h
    match encoding with
    | [] =>
        have hheader : pushHeader [] = .error .emptyInput := rfl
        simp [decodePushPrefix_of_error hheader] at h
    | opcode :: bytes =>
        refine ⟨opcode, bytes, rfl, ?_⟩
        rcases opcode_cases opcode with rfl | ⟨h0, hle⟩ | ⟨form, width, hfield⟩ | rfl |
          ⟨hlo, hhi⟩ | hnot
        · have hheader : pushHeader (0x00 :: bytes) = .ok ⟨.op0, 1, 0, []⟩ := rfl
          simp [decodePushPrefix_of_header hheader] at h
        · rw [decodePushPrefix_of_header (pushHeader_direct h0 hle bytes)] at h
          split_ifs at h
          simp at h
        · have hheader := pushHeader_pushData hfield bytes
          by_cases hshort : bytes.length < width
          · rw [if_pos hshort] at hheader
            simp [decodePushPrefix_of_error hheader] at h
          · rw [if_neg hshort] at hheader
            rw [decodePushPrefix_of_header hheader] at h
            split_ifs at h
            simp at h
        · have hheader : pushHeader (0x4f :: bytes) = .ok ⟨.smallInteger, 1, 0, [0x81]⟩ := rfl
          simp [decodePushPrefix_of_synthetic hheader] at h
        · simp [decodePushPrefix_of_synthetic (pushHeader_smallInteger hlo hhi bytes)] at h
        · exact hnot
  · rintro ⟨opcode, rest, rfl, hop⟩
    exact decodePushPrefix_of_error (pushHeader_notPush hop rest) false

/-- A push is read the same way whatever follows it. -/
theorem decodePushPrefix_append {requireCanonical : Bool}
    (h : decodePushPrefix encoding requireCanonical = .ok decoded)
    (rest : Bytes) : decodePushPrefix (encoding ++ rest) requireCanonical = .ok decoded := by
  have hfalse : ∀ {decoded : DecodedPush}, decodePushPrefix encoding false = .ok decoded →
      decodePushPrefix (encoding ++ rest) false = .ok decoded := by
    intro decoded h
    obtain ⟨push, tail, rfl, hsize, hgrammar⟩ := decodePushPrefix_false_iff.1 h
    exact decodePushPrefix_false_iff.2 ⟨push, tail ++ rest, by simp, hsize, hgrammar⟩
  cases requireCanonical with
  | false => exact hfalse h
  | true =>
      rw [decodePushPrefix_true] at h ⊢
      cases hdec : decodePushPrefix encoding false with
      | error error => simp [hdec, Except.bind] at h
      | ok decoded' =>
          have hle := (grammar_of_decodePushPrefix hdec).1
          rw [hdec] at h
          rw [hfalse hdec]
          simpa only [Except.bind, List.take_append_of_le_length hle] using h

/-! ### The encoders -/

theorem PushGrammar.length_pos (h : PushGrammar form encoding payload) : 0 < encoding.length := by
  cases h <;> simp

def legacySerializedPushSize (payloadSize : ℕ) : Option ℕ :=
  if 4294967295 < payloadSize then none
  else
    let prefixSize :=
      if payloadSize < 76 then 1
      else if payloadSize ≤ 255 then 2
      else if payloadSize ≤ 65535 then 3
      else 5
    some (prefixSize + payloadSize)

theorem legacySerializedPushSize_eq (payloadSize : ℕ) :
    legacySerializedPushSize payloadSize =
      (legacyPushPrefix payloadSize).map fun header => header.length + payloadSize := by
  unfold legacySerializedPushSize legacyPushPrefix
  split_ifs <;> first | omega | simp

/-- The legacy encoding of a payload is a word of the grammar. -/
theorem legacyPushPrefix_spec (h : payload.length ≤ 4294967295) :
    ∃ header form, legacyPushPrefix payload.length = some header ∧
      PushGrammar form (header ++ payload) payload := by
  have hone : ∀ {form : PushForm} {opcode : UInt8} {width : ℕ},
      lengthField form = some (opcode, width) → payload.length < 256 ^ width →
        PushGrammar form ((opcode :: littleEndian payload.length width) ++ payload) payload :=
    fun hfield hlen => .pushData payload hfield hlen
  unfold legacyPushPrefix
  by_cases h75 : payload.length < 76
  · rw [if_pos h75]
    by_cases hnil : payload = []
    · subst hnil
      exact ⟨_, _, rfl, .op0⟩
    · exact ⟨_, _, rfl, .direct _ hnil (by omega)⟩
  rw [if_neg h75]
  by_cases h255 : payload.length ≤ 255
  · exact ⟨_, .pushData1, if_pos h255, hone rfl (by omega)⟩
  rw [if_neg h255]
  by_cases h65535 : payload.length ≤ 65535
  · exact ⟨_, .pushData2, if_pos h65535, hone rfl (by omega)⟩
  · rw [if_neg h65535, if_pos h]
    exact ⟨_, .pushData4, rfl, hone rfl (by omega)⟩

/-- **Both encoders write words of the grammar.** -/
theorem encodePush_spec (h : payload.length ≤ 4294967295) (policy : PushEncodingPolicy) :
    ∃ encoding form, encodePush payload policy = some encoding ∧
      PushGrammar form encoding payload := by
  obtain ⟨header, form, hheader, hgrammar⟩ := legacyPushPrefix_spec h
  unfold encodePush
  rw [if_neg (by omega), hheader]
  cases policy with
  | legacy => exact ⟨_, _, by simp, hgrammar⟩
  | canonical =>
      match payload, hgrammar with
      | [], _ => exact ⟨_, _, by simp, .op0⟩
      | [value], hgrammar =>
          by_cases hsmall : 0x01 ≤ value ∧ value ≤ 0x10
          · exact ⟨_, _, by simp [hsmall], .smallInteger value hsmall.1 hsmall.2⟩
          · by_cases hneg : value = 0x81
            · subst hneg
              exact ⟨_, _, by simp, .negativeOne⟩
            · exact ⟨_, _, by simp [hsmall, hneg], hgrammar⟩
      | _ :: _ :: _, hgrammar => exact ⟨_, _, by simp, hgrammar⟩

theorem encodePush_eq_none_iff :
    encodePush payload policy = none ↔ 4294967295 < payload.length := by
  constructor
  · intro h
    by_contra hle
    obtain ⟨encoding, _, hencoding, _⟩ := encodePush_spec (Nat.not_lt.1 hle) policy
    rw [h] at hencoding
    simp at hencoding
  · intro h
    unfold encodePush
    rw [if_pos h]

theorem grammar_of_encodePush (h : encodePush payload policy = some encoding) :
    ∃ form, PushGrammar form encoding payload := by
  have hle : payload.length ≤ 4294967295 := by
    by_contra hlt
    rw [encodePush_eq_none_iff.2 (Nat.not_le.1 hlt)] at h
    simp at h
  obtain ⟨encoding', form, hencoding, hgrammar⟩ := encodePush_spec hle policy
  rw [h, Option.some.injEq] at hencoding
  subst hencoding
  exact ⟨form, hgrammar⟩

theorem legacySerializedPushSize_spec (payload : Bytes) :
    legacySerializedPushSize payload.length = (encodePush payload .legacy).map List.length := by
  rw [legacySerializedPushSize_eq]
  by_cases hle : payload.length ≤ 4294967295
  · obtain ⟨header, _, hheader, _⟩ := legacyPushPrefix_spec hle
    simp [encodePush, Nat.not_lt.2 hle, hheader]
  · have hlt : 4294967295 < payload.length := Nat.not_le.1 hle
    rw [encodePush_eq_none_iff.2 hlt, legacyPushPrefix, if_neg (by omega), if_neg (by omega),
      if_neg (by omega), if_neg hle]
    rfl

/-! ### Whole pushes -/

theorem decodePush_ok_iff {requireCanonical : Bool} :
    decodePush encoding requireCanonical = .ok decoded ↔
      decodePushPrefix encoding requireCanonical = .ok decoded ∧
        decoded.encodedSize = encoding.length := by
  unfold decodePush
  cases hdec : decodePushPrefix encoding requireCanonical with
  | error error => simp [bind, Except.bind]
  | ok decoded' =>
      by_cases hsize : decoded'.encodedSize = encoding.length
      · simp only [bind, Except.bind, hsize, ne_eq, not_true_eq_false, if_false, pure,
          Except.pure, Except.ok.injEq]
        constructor
        · rintro rfl
          exact ⟨rfl, hsize⟩
        · rintro ⟨rfl, _⟩
          rfl
      · simp only [bind, Except.bind, ne_eq, hsize, not_false_eq_true, if_true, throw, throwThe,
          MonadExceptOf.throw, reduceCtorEq, Except.ok.injEq, false_iff, not_and]
        rintro rfl
        exact hsize

theorem decodePush_false_iff : decodePush encoding false = .ok decoded ↔
      PushGrammar decoded.form encoding decoded.payload ∧
        decoded.encodedSize = encoding.length := by
  rw [decodePush_ok_iff]
  constructor
  · rintro ⟨h, hsize⟩
    have hgrammar := (grammar_of_decodePushPrefix h).2
    rw [hsize, List.take_length] at hgrammar
    exact ⟨hgrammar, hsize⟩
  · rintro ⟨hgrammar, hsize⟩
    exact ⟨decodePushPrefix_false_iff.2 ⟨encoding, [], by simp, hsize, hgrammar⟩, hsize⟩

/-- The canonical decoder accepts a push that the canonical encoder writes for its payload. -/
theorem decodePush_true_iff : decodePush encoding true = .ok decoded ↔
      decodePush encoding false = .ok decoded ∧
        encodePush decoded.payload .canonical = some encoding := by
  rw [decodePush_ok_iff, decodePush_ok_iff, decodePushPrefix_true]
  cases hdec : decodePushPrefix encoding false with
  | error error => simp [Except.bind]
  | ok decoded' =>
      simp only [Except.bind, Except.ok.injEq]
      constructor
      · rintro ⟨h, hsize⟩
        split_ifs at h with hcanonical
        obtain rfl := Except.ok.inj h
        rw [hsize, List.take_length] at hcanonical
        exact ⟨⟨rfl, hsize⟩, hcanonical⟩
      · rintro ⟨⟨rfl, hsize⟩, hcanonical⟩
        refine ⟨?_, hsize⟩
        rw [hsize, List.take_length, if_pos hcanonical]

theorem decodePush_encodePush (h : encodePush payload policy = some encoding) :
    ∃ form, decodePush encoding false = .ok ⟨payload, form, encoding.length⟩ ∧
      (policy = .canonical → decodePush encoding true = .ok ⟨payload, form, encoding.length⟩) := by
  obtain ⟨form, hgrammar⟩ := grammar_of_encodePush h
  have hfalse : decodePush encoding false = .ok ⟨payload, form, encoding.length⟩ :=
    decodePush_false_iff.2 ⟨hgrammar, rfl⟩
  refine ⟨form, hfalse, ?_⟩
  rintro rfl
  exact decodePush_true_iff.2 ⟨hfalse, h⟩

/-! ### The instruction decoder -/

/-- The header the codec reads from a push is the one the instruction decoder reads. -/
theorem pushHeader_push (rest : Bytes) (h : opcode ≤ 0x4e) : ∃ form, pushHeader (opcode :: rest) =
      if rest.length < lengthBytes opcode then .error .truncatedLength
      else .ok ⟨form, 1 + lengthBytes opcode, dataLength opcode rest, []⟩ := by
  by_cases h0 : opcode = 0x00
  · subst h0
    exact ⟨.op0, rfl⟩
  by_cases h4b : opcode ≤ 0x4b
  · have hlt : opcode < 0x4c := UInt8.lt_of_le_of_lt h4b (by decide)
    have hlen : lengthBytes opcode = 0 := by
      by_contra hne
      rcases lengthBytes_pos (Nat.pos_of_ne_zero hne) with rfl | rfl | rfl <;>
        exact absurd h4b (by decide)
    exact ⟨.direct, by simp [pushHeader, h0, h4b, hlen, dataLength, hlt]⟩
  have hop : opcode = 0x4c ∨ opcode = 0x4d ∨ opcode = 0x4e := by
    grind
  rcases hop with rfl | rfl | rfl
  · exact ⟨.pushData1, rfl⟩
  · exact ⟨.pushData2, rfl⟩
  · exact ⟨.pushData4, rfl⟩

/-- **The codec and the instruction decoder see the same pushes**, of the same size and with the
same payload. -/
theorem exists_decodePushPrefix_iff {size : ℕ} :
    (∃ form, decodePushPrefix bytes false = .ok ⟨payload, form, size⟩) ↔
      ∃ instr, decodeInstruction bytes = some (instr, size) ∧ pushValue instr = some payload := by
  match bytes with
  | [] =>
      have hheader : pushHeader [] = .error .emptyInput := rfl
      simp [decodePushPrefix_of_error hheader, decodeInstruction]
  | opcode :: rest =>
      by_cases hpush : opcode ≤ 0x4e
      · obtain ⟨form, hheader⟩ := pushHeader_push rest hpush
        simp only [decodeInstruction, hpush, if_true]
        by_cases hshort : rest.length < lengthBytes opcode
        · rw [if_pos hshort] at hheader
          simp [decodePushPrefix_of_error hheader, hshort]
        rw [if_neg hshort] at hheader
        rw [decodePushPrefix_of_header hheader, if_neg hshort, List.length_cons]
        by_cases htrunc : rest.length < lengthBytes opcode + dataLength opcode rest
        · rw [if_pos (by omega), if_pos htrunc]
          simp
        · have hdrop : (opcode :: rest).drop (1 + lengthBytes opcode) =
              rest.drop (lengthBytes opcode) := by
            rw [Nat.add_comm, List.drop_succ_cons]
          rw [if_neg (by omega), if_neg htrunc, hdrop]
          simp only [Except.ok.injEq, DecodedPush.mk.injEq, Option.some.injEq, Prod.mk.injEq]
          constructor
          · rintro ⟨_, rfl, rfl, rfl⟩
            exact ⟨_, ⟨rfl, rfl⟩, by simp [pushValue, hpush]⟩
          · rintro ⟨_, ⟨rfl, rfl⟩, hvalue⟩
            simp only [pushValue, hpush, if_true, Option.some.injEq] at hvalue
            exact ⟨form, hvalue, rfl, rfl⟩
      · simp only [decodeInstruction, hpush, if_false, Option.some.injEq, Prod.mk.injEq]
        have hone : ∀ value, pushHeader (opcode :: rest) = .ok ⟨.smallInteger, 1, 0, [value]⟩ →
            pushValue ⟨opcode, []⟩ = some [value] →
            ((∃ form, decodePushPrefix (opcode :: rest) false = .ok ⟨payload, form, size⟩) ↔
              ∃ instr, (⟨opcode, []⟩ = instr ∧ 1 = size) ∧ pushValue instr = some payload) := by
          intro value hheader hvalue
          rw [decodePushPrefix_of_synthetic hheader]
          simp only [Except.ok.injEq, DecodedPush.mk.injEq]
          constructor
          · rintro ⟨_, rfl, rfl, rfl⟩
            exact ⟨_, ⟨rfl, rfl⟩, hvalue⟩
          · rintro ⟨_, ⟨rfl, rfl⟩, hpayload⟩
            rw [hvalue, Option.some.injEq] at hpayload
            exact ⟨_, hpayload, rfl, rfl⟩
        rcases opcode_cases opcode with rfl | ⟨h0, hle⟩ | ⟨form, width, hfield⟩ | rfl |
          ⟨hlo, hhi⟩ | hnot
        · exact absurd (by decide) hpush
        · exact absurd (UInt8.le_trans hle (by decide)) hpush
        · rcases lengthField_cases hfield with ⟨_, rfl, _⟩ | ⟨_, rfl, _⟩ | ⟨_, rfl, _⟩ <;>
            exact absurd (by decide) hpush
        · exact hone _ rfl rfl
        · refine hone _ (pushHeader_smallInteger hlo hhi rest) ?_
          have h4f : opcode ≠ 0x4f := by rintro rfl; exact absurd hlo (by decide)
          simp [pushValue, hpush, h4f, hlo, hhi]
        · have hvalue : pushValue ⟨opcode, []⟩ = none := by
            have h4f : opcode ≠ 0x4f := by rintro rfl; simp at hnot
            have hsmall : ¬ (0x51 ≤ opcode ∧ opcode ≤ 0x60) := by
              rintro ⟨hlo, hhi⟩
              rcases hnot with rfl | hgt
              · exact absurd hlo (by decide)
              · exact absurd hhi (UInt8.not_le.2 hgt)
            simp only [pushValue, hpush, h4f, hsmall, if_false]
          rw [decodePushPrefix_of_error (pushHeader_notPush hnot rest)]
          simp [hvalue]

theorem exactInstruction_eq_some_iff {instr : Instruction} :
    exactInstruction bytes = some instr ↔ decodeInstruction bytes = some (instr, bytes.length) := by
  unfold exactInstruction
  cases hdec : decodeInstruction bytes with
  | none => simp
  | some result =>
      obtain ⟨instr', consumed⟩ := result
      by_cases hsize : consumed = bytes.length <;> simp [hsize]

theorem exactInstruction_of_decodePush (h : decodePush bytes false = .ok decoded) :
    ∃ instr, exactInstruction bytes = some instr ∧ pushValue instr = some decoded.payload := by
  obtain ⟨hdec, hsize⟩ := decodePush_ok_iff.1 h
  obtain ⟨instr, hinstr, hvalue⟩ := exists_decodePushPrefix_iff.1 ⟨decoded.form, hdec⟩
  exact ⟨instr, exactInstruction_eq_some_iff.2 (hsize ▸ hinstr), hvalue⟩

/-! ### Accesses to the input -/

/-- `encoding.begin() + first` to `encoding.begin() + last`, `none` where that leaves the input. -/
def slice (encoding : Bytes) (first last : ℕ) : Option Bytes :=
  if first ≤ last ∧ last ≤ encoding.length then some ((encoding.drop first).take (last - first))
  else none

/-- The first half of `decodePushPrefix` with its reads: `none` where one leaves the input. -/
def pushHeaderReads (encoding : Bytes) : Option (Except ScriptCodecError PushHeader) :=
  if encoding.isEmpty then some (.error .emptyInput)
  else do
    let opcode ← encoding[0]?
    if opcode = 0x00 then some (.ok ⟨.op0, 1, 0, []⟩)
    else if opcode ≤ 0x4b then some (.ok ⟨.direct, 1, opcode.toNat, []⟩)
    else if opcode = 0x4c then
      if encoding.length < 2 then some (.error .truncatedLength)
      else do
        let b1 ← encoding[1]?
        some (.ok ⟨.pushData1, 2, b1.toNat, []⟩)
    else if opcode = 0x4d then
      if encoding.length < 3 then some (.error .truncatedLength)
      else do
        let b1 ← encoding[1]?
        let b2 ← encoding[2]?
        some (.ok ⟨.pushData2, 3, b1.toNat ||| (b2.toNat <<< 8), []⟩)
    else if opcode = 0x4e then
      if encoding.length < 5 then some (.error .truncatedLength)
      else do
        let b1 ← encoding[1]?
        let b2 ← encoding[2]?
        let b3 ← encoding[3]?
        let b4 ← encoding[4]?
        some (.ok ⟨.pushData4, 5,
          b1.toNat ||| (b2.toNat <<< 8) ||| (b3.toNat <<< 16) ||| (b4.toNat <<< 24), []⟩)
    else if opcode = 0x4f then some (.ok ⟨.smallInteger, 1, 0, [0x81]⟩)
    else if 0x51 ≤ opcode ∧ opcode ≤ 0x60 then
      some (.ok ⟨.smallInteger, 1, 0, [opcode - 0x50]⟩)
    else some (.error .notPush)

/-- The payload of the push with its reads. -/
def payloadReads (encoding : Bytes) (header : PushHeader) (encodedSize : ℕ) : Option Bytes :=
  if header.syntheticPayload.isEmpty then
    if header.payloadSize ≠ 0 then slice encoding header.headerSize encodedSize else some []
  else some header.syntheticPayload

/-- The second half of `decodePushPrefix` with its reads: `none` where one leaves the input, or
where the unsigned difference `encoding.size() - headerSize` would wrap around. -/
def decodeReads (encoding : Bytes) (requireCanonical : Bool) (header : PushHeader) :
    Option (Except ScriptCodecError DecodedPush) :=
  if encoding.length < header.headerSize then none
  else if header.syntheticPayload.isEmpty ∧
      encoding.length - header.headerSize < header.payloadSize then
    some (.error .truncatedPayload)
  else do
    let encodedSize :=
      if header.syntheticPayload.isEmpty then header.headerSize + header.payloadSize else 1
    let payload ← payloadReads encoding header encodedSize
    let first ← if requireCanonical then slice encoding 0 encodedSize else some []
    if requireCanonical && encodePush payload .canonical != some first then
      some (.error .nonMinimalPush)
    else some (.ok ⟨payload, header.form, encodedSize⟩)

/-- `decodePushPrefix` with its reads: `none` where one leaves the input. -/
def decodePushPrefixReads (encoding : Bytes) (requireCanonical : Bool) :
    Option (Except ScriptCodecError DecodedPush) :=
  (pushHeaderReads encoding).bind fun
    | .error error => some (.error error)
    | .ok header => decodeReads encoding requireCanonical header

theorem slice_of_le {first last : ℕ} (h : first ≤ last) (h' : last ≤ encoding.length) :
    slice encoding first last = some ((encoding.drop first).take (last - first)) :=
  if_pos ⟨h, h'⟩

theorem shiftLeft_or_eq {a b k : ℕ} (h : a < 2 ^ k) : a ||| (b <<< k) = a + 2 ^ k * b := by
  rw [Nat.or_comm, Nat.shiftLeft_eq, Nat.mul_comm, ← Nat.two_pow_add_eq_or_of_lt h]
  omega

/-- No read of the header leaves the input. -/
theorem pushHeaderReads_eq (encoding : Bytes) :
    pushHeaderReads encoding = some (pushHeader encoding) := by
  match encoding with
  | [] => rfl
  | opcode :: rest =>
      have hbyte : ∀ b : UInt8, b.toNat < 2 ^ 8 := fun b => b.toNat_lt
      rcases opcode_cases opcode with rfl | ⟨h0, hle⟩ | ⟨form, width, hfield⟩ | rfl |
        ⟨hlo, hhi⟩ | hnot
      · rfl
      · rw [pushHeader_direct h0 hle]
        simp [pushHeaderReads, h0, hle]
      -- the length field is read byte by byte and put together with shifts
      · rcases lengthField_cases hfield with ⟨rfl, rfl, rfl⟩ | ⟨rfl, rfl, rfl⟩ | ⟨rfl, rfl, rfl⟩
        · match rest with
          | [] => rfl
          | b1 :: _ => rfl
        · match rest with
          | [] => rfl
          | [_] => rfl
          | b1 :: b2 :: rest =>
              have hvalue : b1.toNat ||| (b2.toNat <<< 8) = leNat [b1, b2] :=
                shiftLeft_or_eq (hbyte b1)
              rw [pushHeader_pushData hfield, if_neg (by simp), List.take_succ_cons,
                List.take_succ_cons, List.take_zero, ← hvalue]
              rfl
        · match rest with
          | [] => rfl
          | [_] => rfl
          | [_, _] => rfl
          | [_, _, _] => rfl
          | b1 :: b2 :: b3 :: b4 :: rest =>
              have hb1 := hbyte b1
              have hb2 := hbyte b2
              have hb3 := hbyte b3
              have h12 := shiftLeft_or_eq (b := b2.toNat) hb1
              have h123 : b1.toNat ||| (b2.toNat <<< 8) ||| (b3.toNat <<< 16) =
                  b1.toNat + 2 ^ 8 * b2.toNat + 2 ^ 16 * b3.toNat := by
                rw [h12]
                exact shiftLeft_or_eq (by omega)
              have hvalue : b1.toNat ||| (b2.toNat <<< 8) ||| (b3.toNat <<< 16) |||
                  (b4.toNat <<< 24) = leNat [b1, b2, b3, b4] := by
                rw [h123, shiftLeft_or_eq (by omega)]
                simp only [leNat_cons, leNat_nil]
                omega
              rw [pushHeader_pushData hfield, if_neg (by simp), List.take_succ_cons,
                List.take_succ_cons, List.take_succ_cons, List.take_succ_cons, List.take_zero,
                ← hvalue]
              rfl
      · rfl
      · obtain ⟨h0, h1, h2, h3, h4, h5⟩ : opcode ≠ 0x00 ∧ ¬ opcode ≤ 0x4b ∧ opcode ≠ 0x4c ∧
            opcode ≠ 0x4d ∧ opcode ≠ 0x4e ∧ opcode ≠ 0x4f := by
          grind
        rw [pushHeader_smallInteger hlo hhi]
        simp [pushHeaderReads, h0, h1, h2, h3, h4, h5, hlo, hhi]
      · obtain ⟨h0, h1, h2, h3, h4, h5, h6⟩ : opcode ≠ 0x00 ∧ ¬ opcode ≤ 0x4b ∧ opcode ≠ 0x4c ∧
            opcode ≠ 0x4d ∧ opcode ≠ 0x4e ∧ opcode ≠ 0x4f ∧
              ¬ (0x51 ≤ opcode ∧ opcode ≤ 0x60) := by
          grind
        rw [pushHeader_notPush hnot]
        simp only [pushHeaderReads, List.isEmpty_cons, Bool.false_eq_true, if_false,
          List.getElem?_cons_zero, Option.bind_eq_bind, Option.bind_some, h0, h1, h2, h3, h4, h5,
          h6]

theorem headerSize_le {header : PushHeader} (h : pushHeader encoding = .ok header) :
    1 ≤ header.headerSize ∧ header.headerSize ≤ encoding.length := by
  match encoding with
  | [] => simp [pushHeader] at h
  | opcode :: rest =>
      simp only [pushHeader] at h
      split_ifs at h <;> obtain rfl := Except.ok.inj h <;> simp <;> omega

theorem payloadReads_eq {header : PushHeader}
    (h : header.headerSize + header.payloadSize ≤ encoding.length) :
    payloadReads encoding header (header.headerSize + header.payloadSize) =
      some (if header.syntheticPayload.isEmpty then
        (encoding.drop header.headerSize).take header.payloadSize else header.syntheticPayload) := by
  unfold payloadReads
  split_ifs with hempty hsize
  · rw [slice_of_le (by omega) h, Nat.add_sub_cancel_left]
  · rw [not_ne_iff.1 hsize, List.take_zero]
  · rfl

/-- **No decode reads beyond its input.** -/
theorem decodePushPrefixReads_eq (encoding : Bytes) (requireCanonical : Bool) :
    decodePushPrefixReads encoding requireCanonical =
      some (decodePushPrefix encoding requireCanonical) := by
  have hfirst : ∀ n, n ≤ encoding.length → slice encoding 0 n = some (encoding.take n) :=
    fun n hn => by simpa using slice_of_le (Nat.zero_le n) hn
  unfold decodePushPrefixReads decodePushPrefix
  rw [pushHeaderReads_eq, Option.bind_some]
  cases hheader : pushHeader encoding with
  | error error => rfl
  | ok header =>
      obtain ⟨hpos, hle⟩ := headerSize_le hheader
      simp only [decodeReads, Nat.not_lt.2 hle, if_false, bind, Except.bind]
      cases hempty : header.syntheticPayload.isEmpty
      · have hone : 1 ≤ encoding.length := by omega
        simp only [Bool.false_eq_true, hempty, false_and, if_false, payloadReads,
          Option.bind_some, hfirst _ hone, pure, Except.pure]
        cases requireCanonical
        · rfl
        · simp only [if_true, Bool.true_and]
          split_ifs <;> rfl
      · by_cases htrunc : encoding.length - header.headerSize < header.payloadSize
        · simp only [htrunc, and_self, if_true]
          rfl
        · have hsize : header.headerSize + header.payloadSize ≤ encoding.length := by omega
          simp only [hempty, htrunc, and_false, if_true, if_false, payloadReads_eq hsize,
            Option.bind_some, hfirst _ hsize, pure, Except.pure]
          cases requireCanonical
          · rfl
          · simp only [if_true, Bool.true_and]
            split_ifs <;> rfl

/-! ### The codec as a whole -/

/-- The text `encodePush` returns. -/
def encodePushHex (payload : Bytes) (policy : PushEncodingPolicy) : Option String :=
  (encodePush payload policy).map fun bytes => String.ofList (bytesToHex bytes)

theorem serializedPushSize_eq (payload : Bytes) (policy : PushEncodingPolicy) :
    serializedPushSize payload policy =
      (encodePushHex payload policy).map fun text => text.toList.length / 2 := by
  simp only [serializedPushSize, encodePushHex, Option.map_map]
  congr 1
  funext bytes
  simp [bytesToHex_length]

/-- **The push codec is exact.**  What an encoder writes for a payload with a length field is
decoded to that payload, structurally by either policy and canonically by the canonical one, from
the bytes as from their text; a push is read the same way whatever follows it; the canonical decoder
accepts exactly what the canonical encoder writes, one encoding a payload; the structural one
accepts exactly the push grammar; no read leaves the input; and the sizes are those of the
encodings. -/
theorem pushCodec_exact :
    (∀ (payload : Bytes) (policy : PushEncodingPolicy), payload.length ≤ 4294967295 →
      ∃ encoding text form, encodePush payload policy = some encoding ∧
        encodePushHex payload policy = some text ∧
        decodePush encoding false = .ok ⟨payload, form, encoding.length⟩ ∧
        decodePushHex text false = .ok ⟨payload, form, encoding.length⟩ ∧
        (policy = .canonical →
          decodePush encoding true = .ok ⟨payload, form, encoding.length⟩ ∧
          decodePushHex text true = .ok ⟨payload, form, encoding.length⟩)) ∧
    (∀ (encoding rest : Bytes) (requireCanonical : Bool) (decoded : DecodedPush),
      decodePushPrefix encoding requireCanonical = .ok decoded →
        decodePushPrefix (encoding ++ rest) requireCanonical = .ok decoded) ∧
    (∀ encoding : Bytes, (∃ decoded, decodePush encoding true = .ok decoded) ↔
      ∃ payload, encodePush payload .canonical = some encoding) ∧
    (∀ (encoding encoding' : Bytes) (decoded decoded' : DecodedPush),
      decodePush encoding true = .ok decoded → decodePush encoding' true = .ok decoded' →
        decoded.payload = decoded'.payload → encoding = encoding') ∧
    (∀ (encoding : Bytes) (decoded : DecodedPush), decodePush encoding false = .ok decoded ↔
      PushGrammar decoded.form encoding decoded.payload ∧
        decoded.encodedSize = encoding.length) ∧
    (∀ (encoding : Bytes) (requireCanonical : Bool),
      decodePushPrefixReads encoding requireCanonical =
        some (decodePushPrefix encoding requireCanonical)) ∧
    (∀ (payload : Bytes) (policy : PushEncodingPolicy),
      serializedPushSize payload policy = (encodePush payload policy).map List.length ∧
        serializedPushSize payload policy =
          (encodePushHex payload policy).map fun text => text.toList.length / 2) ∧
    ∀ payload : Bytes,
      legacySerializedPushSize payload.length = (encodePush payload .legacy).map List.length := by
  refine ⟨?_, fun _ rest _ _ h => decodePushPrefix_append h rest, ?_, ?_,
    fun _ _ => decodePush_false_iff, decodePushPrefixReads_eq,
    fun _ _ => ⟨rfl, serializedPushSize_eq _ _⟩, legacySerializedPushSize_spec⟩
  · intro payload policy hle
    obtain ⟨encoding, _, hencoding, hgrammar⟩ := encodePush_spec hle policy
    obtain ⟨form, hfalse, htrue⟩ := decodePush_encodePush hencoding
    have hhex : hexToBytes (String.ofList (bytesToHex encoding)) = .ok encoding :=
      hexToBytes_of_hexPairs (List.length_pos_iff.1 hgrammar.length_pos)
        (by rw [String.toList_ofList]; exact hexPairs_bytesToHex encoding)
    have htext : ∀ requireCanonical, decodePushHex (String.ofList (bytesToHex encoding))
        requireCanonical = decodePush encoding requireCanonical := by
      intro requireCanonical
      simp only [decodePushHex, hhex, bind, Except.bind]
    refine ⟨encoding, _, form, hencoding, by rw [encodePushHex, hencoding]; rfl, hfalse,
      by rw [htext, hfalse], fun hpolicy => ⟨htrue hpolicy, by rw [htext, htrue hpolicy]⟩⟩
  · intro encoding
    constructor
    · rintro ⟨decoded, h⟩
      exact ⟨decoded.payload, (decodePush_true_iff.1 h).2⟩
    · rintro ⟨payload, h⟩
      obtain ⟨form, _, htrue⟩ := decodePush_encodePush h
      exact ⟨_, htrue rfl⟩
  · intro encoding encoding' decoded decoded' h h' hpayload
    have hencoding := (decodePush_true_iff.1 h).2
    rw [hpayload, (decodePush_true_iff.1 h').2] at hencoding
    exact (Option.some.inj hencoding).symm

/-- The payload `11`, whose canonical encoding is the opcode that stands for it. -/
theorem pushCodec_exact_eleven :
    ∃ encoding text form, encodePush [0x0b] .canonical = some encoding ∧
      encodePushHex [0x0b] .canonical = some text ∧
      decodePush encoding false = .ok ⟨[0x0b], form, encoding.length⟩ ∧
      decodePushHex text false = .ok ⟨[0x0b], form, encoding.length⟩ ∧
      (PushEncodingPolicy.canonical = .canonical →
        decodePush encoding true = .ok ⟨[0x0b], form, encoding.length⟩ ∧
        decodePushHex text true = .ok ⟨[0x0b], form, encoding.length⟩) :=
  pushCodec_exact.1 [0x0b] .canonical (by decide)

end AtomicProof.ScriptCodec
