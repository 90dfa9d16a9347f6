/-
Computations that can fail.

A computation reads and writes a state, can throw an error and need not end.  An error leaves the state
as it was when it was thrown.  A triple says what holds afterwards of the result and of the state, apart
for a result and for an error; of a computation that does not end it says nothing.

Main definitions:

* `Computation` — a computation over a state, with errors;
* `Outcome` — what holds after a computation, however it ends;
* `Triple` — a triple;
* `Yields` — the triples that speak of results alone.

Main results:

* `Triple.pure`, `Triple.throw`, `Triple.changed`, `Triple.ofExcept`, `Triple.ofOption` — the rules of the
  basic computations;
* `Triple.bind`, `Triple.tryCatch` — **the rules of sequence and recovery**;
* `Triple.weaken` — the rule of consequence.
-/

import Mathlib.Data.Option.Basic

set_option autoImplicit false

namespace AtomicProof

/-- A computation over a state: no result, or a value or an error with the state it leaves. -/
abbrev Computation (ε σ α : Type) := ExceptT ε (StateT σ Option) α

namespace Computation

variable {ε σ α β : Type}

def ofOption (value : Option α) : Computation ε σ α := fun s => value.map fun a => (.ok a, s)

/-! ### Runs -/

section Runs

variable {m : Computation ε σ α} {f : α → Computation ε σ β} {s s' : σ}

theorem run_get_bind {f : σ → Computation ε σ β} : (get >>= f : Computation ε σ β) s = f s s := rfl

theorem bind_of_ok {a : α} (h : m s = some (.ok a, s')) : (m >>= f) s = f a s' := by
  show (m s).bind _ = _
  rw [h]
  rfl

theorem bind_of_error {e : ε} (h : m s = some (.error e, s')) :
    (m >>= f) s = some (.error e, s') := by
  show (m s).bind _ = _
  rw [h]
  rfl

theorem bind_of_none (h : m s = none) : (m >>= f) s = none := by
  show (m s).bind _ = _
  rw [h]
  rfl

/-- A result of two computations in a row is that of the second one. -/
theorem exists_of_bind {b : β} (h : (m >>= f) s = some (.ok b, s')) :
    ∃ a mid, m s = some (.ok a, mid) ∧ f a mid = some (.ok b, s') := by
  cases hm : m s with
  | none =>
      rw [bind_of_none hm] at h
      cases h
  | some run =>
      obtain ⟨first, mid⟩ := run
      cases first with
      | ok a =>
          rw [bind_of_ok hm] at h
          exact ⟨a, mid, rfl, h⟩
      | error e =>
          rw [bind_of_error hm] at h
          cases h

end Runs

/-! ### Triples -/

/-- What holds after a computation, however it ends. -/
def Outcome (Q : α → σ → Prop) (E : ε → σ → Prop) : Except ε α → σ → Prop
  | .ok a, s => Q a s
  | .error e, s => E e s

/-- **A triple**: what holds after a computation that ends, where `P` held before it. -/
def Triple (P : σ → Prop) (m : Computation ε σ α) (Q : α → σ → Prop) (E : ε → σ → Prop) : Prop :=
  ∀ s, P s → ∀ r s', m s = some (r, s') → Outcome Q E r s'

namespace Triple

variable {P P' : σ → Prop} {m : Computation ε σ α} {Q Q' : α → σ → Prop} {E E' : ε → σ → Prop}
  {R : β → σ → Prop}

/-! ### Basic computations -/

theorem pure {a : α} (h : ∀ s, P s → Q a s) : Triple P (Pure.pure a : Computation ε σ α) Q E := by
  intro s hs r s' hrun
  obtain ⟨rfl, rfl⟩ := Prod.mk.inj (Option.some.inj hrun)
  exact h s hs

theorem throw {e : ε} (h : ∀ s, P s → E e s) :
    Triple P (MonadExcept.throw e : Computation ε σ α) Q E := by
  intro s hs r s' hrun
  obtain ⟨rfl, rfl⟩ := Prod.mk.inj (Option.some.inj hrun)
  exact h s hs

theorem changed {f : σ → σ} {Q : Unit → σ → Prop} (h : ∀ s, P s → Q () (f s)) :
    Triple P (modify f : Computation ε σ Unit) Q E := by
  intro s hs r s' hrun
  obtain ⟨rfl, rfl⟩ := Prod.mk.inj (Option.some.inj hrun)
  exact h s hs

theorem ofExcept {x : Except ε α} (hok : ∀ a s, x = .ok a → P s → Q a s)
    (herror : ∀ e s, x = .error e → P s → E e s) :
    Triple P (MonadExcept.ofExcept x : Computation ε σ α) Q E := by
  cases x with
  | ok a => exact Triple.pure fun s hs => hok a s rfl hs
  | error e => exact Triple.throw fun s hs => herror e s rfl hs

theorem ofOption {x : Option α} (h : ∀ a s, x = some a → P s → Q a s) :
    Triple P (Computation.ofOption x : Computation ε σ α) Q E := by
  cases x with
  | none => exact fun s hs r s' hrun => nomatch hrun
  | some a =>
      intro s hs r s' hrun
      obtain ⟨rfl, rfl⟩ := Prod.mk.inj (Option.some.inj hrun)
      exact h a s rfl hs

/-! ### Composition -/

theorem bind {f : α → Computation ε σ β} (hm : Triple P m Q E) (hf : ∀ a, Triple (Q a) (f a) R E) :
    Triple P (m >>= f) R E := by
  intro s hs r s' hrun
  obtain ⟨⟨first, middle⟩, hfirst, hrest⟩ :=
    Option.bind_eq_some_iff.1 (show (m s).bind _ = some (r, s') from hrun)
  have houtcome := hm s hs first middle hfirst
  cases first with
  | ok a => exact hf a middle houtcome r s' hrest
  | error e =>
      obtain ⟨rfl, rfl⟩ := Prod.mk.inj (Option.some.inj hrest)
      exact houtcome

theorem get_bind {f : σ → Computation ε σ β} (h : ∀ s, P s → Triple (· = s) (f s) R E) :
    Triple P (get >>= f) R E := by
  intro s hs r s' hrun
  exact h s hs s rfl r s' hrun

/-- **Recovery**: the handler begins where the error was thrown. -/
theorem tryCatch {handle : ε → Computation ε σ α} (hm : Triple P m Q E)
    (hhandle : ∀ e, Triple (E e) (handle e) Q E') :
    Triple P (MonadExcept.tryCatch m handle) Q E' := by
  intro s hs r s' hrun
  obtain ⟨⟨first, middle⟩, hfirst, hrest⟩ :=
    Option.bind_eq_some_iff.1 (show (m s).bind _ = some (r, s') from hrun)
  have houtcome := hm s hs first middle hfirst
  cases first with
  | ok a =>
      obtain ⟨rfl, rfl⟩ := Prod.mk.inj (Option.some.inj hrest)
      exact houtcome
  | error e => exact hhandle e middle houtcome r s' hrest

/-! ### Consequence -/

theorem weaken (h : Triple P m Q E) (hP : ∀ s, P' s → P s) (hQ : ∀ a s, Q a s → Q' a s)
    (hE : ∀ e s, E e s → E' e s) : Triple P' m Q' E' := by
  intro s hs r s' hrun
  have houtcome := h s (hP s hs) r s' hrun
  cases r with
  | ok a => exact hQ a s' houtcome
  | error e => exact hE e s' houtcome

theorem of_false (h : ∀ s, ¬ P s) : Triple P m Q E := fun s hs => absurd hs (h s)

end Triple

/-! ### Results -/

/-- Every result is so, whatever the state before and after. -/
def Yields (m : Computation ε σ α) (p : α → Prop) : Prop :=
  Triple (fun _ => True) m (fun a _ => p a) (fun _ _ => True)

namespace Yields

variable {m : Computation ε σ α} {p q : α → Prop} {r : β → Prop}

theorem pure {a : α} (h : p a) : Yields (Pure.pure a : Computation ε σ α) p :=
  Triple.pure fun _ _ => h

theorem throw {e : ε} : Yields (MonadExcept.throw e : Computation ε σ α) p :=
  Triple.throw fun _ _ => trivial

theorem bind {f : α → Computation ε σ β} (hm : Yields m p) (hf : ∀ a, p a → Yields (f a) r) :
    Yields (m >>= f) r := by
  refine Triple.bind hm fun a => ?_
  by_cases ha : p a
  · exact (hf a ha).weaken (fun _ _ => trivial) (fun _ _ h => h) (fun _ _ h => h)
  · exact Triple.of_false fun _ h => ha h

theorem any (m : Computation ε σ α) : Yields m fun _ => True := by
  intro s _ result s' _
  cases result with
  | ok a => trivial
  | error e => trivial

theorem after {f : α → Computation ε σ β} (hf : ∀ a, Yields (f a) r) : Yields (m >>= f) r :=
  (any m).bind fun a _ => hf a

theorem imp (h : Yields m p) (himp : ∀ a, p a → q a) : Yields m q :=
  h.weaken (fun _ _ => trivial) (fun a _ => himp a) (fun _ _ => id)

theorem tryCatch {handle : ε → Computation ε σ α} (hm : Yields m p)
    (hhandle : ∀ e, Yields (handle e) p) : Yields (MonadExcept.tryCatch m handle) p :=
  Triple.tryCatch hm hhandle

theorem elim (h : Yields m p) {s s' : σ} {a : α} (hrun : m s = some (.ok a, s')) : p a :=
  h s trivial (.ok a) s' hrun

end Yields

end Computation

end AtomicProof
