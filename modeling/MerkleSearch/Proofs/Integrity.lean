import MerkleSearch.Proofs.Coupling
import MerkleSearch.Proofs.Table

/-!
This module contains what a store can do with a reader who has nothing but the address of a tree: it
can refuse to answer, but it cannot give two answers. Whatever the stores at hand have been filled
with, what is read of the tree is the same with each of them, as long as no block of the one has the
address of another block of the other.
-/

namespace MerkleSearch

variable {config : Config} {store store' : Blockstore Id} {root : Cid}

def Coupling.agreement : Coupling Id Id where
  rel x y := ∀ a b, x.run = .ok a → y.run = .ok b → a = b
  pure := by
    rintro _ a _ _ ⟨⟩ ⟨⟩
    rfl
  throw := by
    rintro _ e _ _ ⟨⟩
  bind := by
    intro α β x y f g h hf b b' hb hb'
    obtain ⟨a, hx, hb⟩ := exists_of_run_bind_eq_ok hb
    obtain ⟨a', hy, hb'⟩ := exists_of_run_bind_eq_ok hb'
    cases h a a' hx hy
    exact hf a b b' hb hb'

namespace Blockstore

def Apart (config : Config) (store store' : Blockstore Id) : Prop :=
  ∀ a b bytes bytes', (store.get? a).run = .ok (some bytes) →
    (store'.get? b).run = .ok (some bytes') → config.codec.SameAddress bytes bytes' → bytes = bytes'

theorem Apart.fetches (h : store.Apart config store') :
    Coupling.agreement.Fetches store store' config := by
  intro t n n' hn hn'
  match t with
  | .resolved node =>
    rw [Subtree.resolve] at hn hn'
    exact Except.ok.inj (hn.symm.trans hn')
  | .unresolved address hint =>
    obtain ⟨-, bytes, record, hget, haddress, hdecode, hnode⟩ := Subtree.resolve_unresolved hn
    obtain ⟨-, bytes', record', hget', haddress', hdecode', hnode'⟩ :=
      Subtree.resolve_unresolved hn'
    cases h _ _ _ _ hget hget' ⟨_, haddress, haddress'⟩
    cases hdecode.symm.trans hdecode'
    exact Subtype.ext (Except.ok.inj (hnode.symm.trans hnode'))

end Blockstore

structure Tree.ReadsAlike (tree : Tree) (store store' : Blockstore Id) : Prop where
  get? : ∀ key a b, (tree.get? store key).run = .ok a → (tree.get? store' key).run = .ok b → a = b
  leaves : ∀ a b, (tree.leaves store).run = .ok a → (tree.leaves store').run = .ok b → a = b
  path : ∀ key a b, (tree.path store key).run = .ok a → (tree.path store' key).run = .ok b → a = b
  list : ∀ count after before a b, (tree.list store count after before).run = .ok a →
    (tree.list store' count after before).run = .ok b → a = b

theorem Blockstore.Apart.readsAlike (h : store.Apart config store') (root : Cid) :
    (Tree.load root config).ReadsAlike store store' := by
  have hfetches : Coupling.agreement.Fetches store store' (Tree.load root config).config :=
    h.fetches
  exact {
    get? := Tree.rel_get? hfetches
    leaves := Tree.rel_leaves hfetches
    path := Tree.rel_path hfetches
    list := Tree.rel_list hfetches }

theorem Blockstore.Apart.readsAlike_of_forged_block :
    (Tree.load (Sample.pointer 2) Sample.config).ReadsAlike (.snapshot Sample.shelf)
      (.snapshot Sample.forgedShelf) ∧
      ((Tree.load (Sample.pointer 2) Sample.config).get? (.snapshot Sample.shelf)
        Sample.high.key).run = .ok (some Sample.high.value) ∧
      ((Tree.load (Sample.pointer 2) Sample.config).get? (.snapshot Sample.forgedShelf)
        Sample.high.key).run = .ok (some Sample.high.value) := by
  refine ⟨Apart.readsAlike ?_ _, Sample.get?_high_load (by cbv), Sample.get?_high_load (by cbv)⟩
  intro a b bytes bytes' hget hget' haddress
  exact Sample.archive.injective bytes bytes' (Sample.archive_blocks_of_shelf hget)
    (Sample.archive_blocks_of_forgedShelf hget') haddress

end MerkleSearch
