import MerkleSearch.Blockstore

/-!
This module contains the way in which statements about operations on a store are made. The store is
a function from addresses to what it answers. An operation either settles, with a result or an error
that are as stated, or it fails because something that it needs is not available.
-/

namespace MerkleSearch

theorem exists_of_bind_eq_ok {ε α β : Type} {x : Except ε α} {f : α → Except ε β} {b : β}
    (h : x >>= f = .ok b) : ∃ a, x = .ok a ∧ f a = .ok b := by
  cases x with
  | error e => cases h
  | ok a => exact ⟨a, rfl, h⟩

theorem mapError_eq_ok {ε ε' α : Type} {f : ε → ε'} {x : Except ε α} {a : α} :
    x.mapError f = .ok a ↔ x = .ok a := by
  cases x with
  | error e =>
    change Except.error (f e) = .ok a ↔ _
    simp
  | ok b =>
    change Except.ok b = .ok a ↔ _
    simp

theorem mapError_eq_error {ε ε' α : Type} {f : ε → ε'} {x : Except ε α} {e : ε'} :
    x.mapError f = .error e ↔ ∃ cause, x = .error cause ∧ f cause = e := by
  cases x with
  | error cause =>
    change Except.error (f cause) = .error e ↔ _
    simp
  | ok a =>
    change Except.ok a = .error e ↔ _
    simp

variable {α β : Type} {available : Prop}

def Settles (available : Prop) (x : ExceptT Error Id α) (A : α → Prop) (E : Error → Prop) : Prop :=
  match x.run with
  | .ok a => A a
  | .error e => E e ∨ ¬available

/--
The operation does not fail, as long as everything is available.
-/
abbrev Returns (available : Prop) (x : ExceptT Error Id α) (A : α → Prop) : Prop :=
  Settles available x A fun _ => False

namespace Settles

variable {x : ExceptT Error Id α} {f : α → ExceptT Error Id β}
variable {A A' : α → Prop} {B : β → Prop} {E E' : Error → Prop}

theorem pure {a : α} (h : A a) : Settles available (pure a) A E := h

theorem throw {e : Error} (h : E e) : Settles available (throw e : ExceptT Error Id α) A E := .inl h

theorem of_run_ok {a : α} (hx : x.run = .ok a) (h : A a) : Settles available x A E := by
  unfold Settles
  rw [hx]
  exact h

theorem lift {y : Except Error α} {a : α} (hy : y = .ok a) (h : A a) :
    Settles available (liftM y : ExceptT Error Id α) A E := by
  rw [hy]
  exact h

theorem bind (hx : Settles available x A E) (hf : ∀ a, A a → Settles available (f a) B E) :
    Settles available (x >>= f) B E := by
  unfold Settles at hx
  split at hx
  · next a heq =>
    have : x >>= f = f a := by
      rw [show x = Pure.pure a from heq]
      rfl
    rw [this]
    exact hf a hx
  · next e heq =>
    have : x >>= f = MonadExcept.throw e := by
      rw [show x = MonadExcept.throw e from heq]
      rfl
    rw [this]
    exact hx

theorem imp {available' : Prop} (h : Settles available x A E) (havailable : available' → available)
    (hA : ∀ a, A a → A' a) (hE : ∀ e, E e → E' e) : Settles available' x A' E' := by
  unfold Settles at h ⊢
  split
  · next heq =>
    rw [heq] at h
    exact hA _ h
  · next heq =>
    rw [heq] at h
    exact h.imp (hE _) (mt havailable)

theorem mono {available' : Prop} (h : Settles available x A E)
    (havailable : available' → available) :
    Settles available' x A E :=
  h.imp havailable (fun _ => id) fun _ => id

theorem of_ok {a : α} (h : Settles available x A E) (hx : x.run = .ok a) : A a := by
  unfold Settles at h
  rwa [hx] at h

theorem of_error {e : Error} (h : Settles available x A E) (havailable : available)
    (hx : x.run = .error e) : E e := by
  unfold Settles at h
  rw [hx] at h
  exact h.resolve_right (not_not_intro havailable)

theorem trivial : Settles available x (fun _ => True) fun _ => True := by
  unfold Settles
  split
  · exact True.intro
  · exact .inl True.intro

theorem with_run (h : Settles available x A E) :
    Settles available x (fun a => A a ∧ x.run = .ok a) E := by
  unfold Settles at h ⊢
  split
  · next heq =>
    rw [heq] at h
    exact ⟨h, heq⟩
  · next heq =>
    rw [heq] at h
    exact h

end Settles

namespace Returns

variable {x : ExceptT Error Id α} {A : α → Prop}

theorem settles {available' : Prop} {E : Error → Prop} (h : Returns available x A)
    (havailable : available' → available) : Settles available' x A E :=
  h.imp havailable (fun _ => id) fun _ => False.elim

theorem exists_ok (h : Returns available x A)
    (havailable : available) : ∃ a, x.run = .ok a ∧ A a := by
  cases hx : x.run with
  | ok a => exact ⟨a, rfl, h.of_ok hx⟩
  | error e => exact (Settles.of_error h havailable hx).elim

end Returns

namespace Blockstore

theorem run_read {store : Blockstore Id} {address : Cid} {bytes : Bytes} :
    (store.read address).run = .ok bytes ↔ (store.get? address).run = .ok (some bytes) := by
  unfold read ask
  generalize store.get? address = answer
  cases answer with
  | error outage => exact ⟨nofun, nofun⟩
  | ok found =>
    cases found with
    | none => exact ⟨nofun, nofun⟩
    | some found =>
      constructor
      · intro h
        cases h
        rfl
      · intro h
        cases h
        rfl

end Blockstore

end MerkleSearch
