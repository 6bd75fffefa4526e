import MerkleSearch.Tree.Add
import MerkleSearch.Tree.Delete
import MerkleSearch.Tree.Get
import MerkleSearch.Tree.Update

/-!
This module contains how each operation on a subtree goes on from the node that is read for it.
These are the equations by which two runs of an operation are compared step by step.
-/

namespace MerkleSearch

namespace Subtree

variable {store : Blockstore Id} {config : Config}

theorem get?_eq (key : String) (t : Subtree) :
    t.get? store config key = (do
      let n ← t.resolve store config
      match (n.val.gap key).found? key, (n.val.gap key).subtree with
      | some (leaf, _), _ => return some leaf.value
      | none, some c => c.get? store config key
      | none, none => return none) := by
  rw [get?]
  congr
  funext n
  dsimp only
  split
  · next hfound => rw [hfound]
  · next hfound hsubtree => rw [hfound, hsubtree]
  · next hfound hsubtree => rw [hfound, hsubtree]

section

variable {t c : Subtree} {key : String} {n : { node : Node // t.Covers node }}

theorem get?_of_found (hn : (t.resolve store config).run = .ok n) {leaf : Leaf}
    {rest : List NodeEntry} (hfound : (n.val.gap key).found? key = some (leaf, rest)) :
    t.get? store config key = pure (some leaf.value) := by
  rw [get?_eq, show t.resolve store config = pure n from hn, pure_bind, hfound]

theorem get?_of_subtree (hn : (t.resolve store config).run = .ok n)
    (hfound : (n.val.gap key).found? key = none) (hsubtree : (n.val.gap key).subtree = some c) :
    t.get? store config key = c.get? store config key := by
  rw [get?_eq, show t.resolve store config = pure n from hn, pure_bind, hfound, hsubtree]

theorem get?_of_subtree_none (hn : (t.resolve store config).run = .ok n)
    (hfound : (n.val.gap key).found? key = none) (hsubtree : (n.val.gap key).subtree = none) :
    t.get? store config key = pure none := by
  rw [get?_eq, show t.resolve store config = pure n from hn, pure_bind, hfound, hsubtree]

theorem get?_of_error {e : Error} (he : (t.resolve store config).run = .error e) :
    t.get? store config key = throw e := by
  rw [get?_eq, show t.resolve store config = throw e from he]
  rfl

end

theorem path_eq (key : String) (t : Subtree) :
    t.path store config key = (do
      let n ← t.resolve store config
      let address ← n.val.addressIn config
      match (n.val.gap key).found? key, (n.val.gap key).subtree with
      | some (leaf, _), _ => return [address, leaf.value]
      | none, some c => return address :: (← c.path store config key)
      | none, none => return [address]) := by
  rw [path]
  congr
  funext n
  refine bind_congr fun address => ?_
  dsimp only
  split
  · next hfound => rw [hfound]
  · next hfound hsubtree => rw [hfound, hsubtree]
  · next hfound hsubtree => rw [hfound, hsubtree]

theorem split_eq (key : String) (t : Subtree) :
    t.split store config key = (do
      let n ← t.resolve store config
      match (n.val.gap key).subtree with
      | some below => do
        let parts ← below.split store config key
        return (ofEntries? ((n.val.gap key).before ++ Entry.ofTree? parts.1) n.val.layer,
          ofEntries? (Entry.ofTree? parts.2 ++ (n.val.gap key).after) n.val.layer)
      | none =>
        return (ofEntries? (n.val.gap key).before n.val.layer,
          ofEntries? (n.val.gap key).after n.val.layer)) := by
  rw [split]
  refine bind_congr fun n => ?_
  dsimp only
  split
  · next hsubtree => rw [hsubtree]
  · next hsubtree => rw [hsubtree]

theorem split_resolved {t : Subtree} {key : String} {n : { node : Node // t.Covers node }}
    (hn : (t.resolve store config).run = .ok n) :
    (resolved n.val).split store config key = t.split store config key := by
  rw [split_eq, split_eq key t, show t.resolve store config = pure n from hn]
  rfl

theorem merge_eq (left right : Subtree) :
    left.merge store config right = (do
      let l ← left.resolve store config
      let r ← right.resolve store config
      let leftLayer ← left.layerOf store config l.val l.property
      let rightLayer ← right.layerOf store config r.val r.property
      if leftLayer ≠ rightLayer then
        throw (.malformedNode (.mergeAcrossLayers leftLayer rightLayer))
      else
        match l.val.entries.getLast?, r.val.entries with
        | some (.tree a), .tree b :: rest => do
          let merged ← a.merge store config b
          return {
            entries := l.val.entries.dropLast ++ .tree (.resolved merged) :: rest
            layer := some leftLayer }
        | _, _ =>
          return { entries := l.val.entries ++ r.val.entries, layer := some leftLayer }) := by
  rw [merge]
  refine bind_congr fun l => ?_
  refine bind_congr fun r => ?_
  refine bind_congr fun leftLayer => ?_
  refine bind_congr fun rightLayer => ?_
  dsimp only
  split
  · rfl
  · split
    · next hlast hentries => rw [hlast, hentries]
    · next hother =>
      split
      · next hlast hentries => exact (hother _ _ _ hlast hentries).elim
      · rfl

theorem add_eq (leaf : Leaf) (keyLayer : Nat) (t : Subtree) :
    t.add store config leaf keyLayer = (do
      let n ← t.resolve store config
      let layer ← t.layerOf store config n.val n.property
      if keyLayer = layer then
        if ((n.val.gap leaf.key).found? leaf.key).isSome then
          throw (.keyExists leaf.key)
        else
          match (n.val.gap leaf.key).subtree with
          | some below => do
            let parts ← below.split store config leaf.key
            return n.val.withEntries ((n.val.gap leaf.key).fill (leaf.between parts.1 parts.2))
          | none => return n.val.withEntries ((n.val.gap leaf.key).fill [.leaf leaf])
      else if keyLayer < layer then
        match (n.val.gap leaf.key).subtree with
        | some below => do
          let child ← below.add store config leaf keyLayer
          return n.val.withEntries ((n.val.gap leaf.key).fill [.tree (.resolved child)])
        | none =>
          return n.val.withEntries ((n.val.gap leaf.key).fill
            [.tree
              ((ofEntries [.leaf leaf] (some keyLayer)).raise keyLayer (layer - 1 - keyLayer))])
      else do
        let parts ← (Subtree.resolved n.val).split store config leaf.key
        return { entries := leaf.between (parts.1.map (·.raise layer (keyLayer - layer - 1)))
                   (parts.2.map (·.raise layer (keyLayer - layer - 1)))
                 layer := some keyLayer }) := by
  rw [add]
  refine bind_congr fun n => ?_
  refine bind_congr fun layer => ?_
  dsimp only
  split
  · rfl
  · split
    · split
      · next hsubtree => rw [hsubtree]
      · next hsubtree => rw [hsubtree]
    · rfl

theorem update_eq (leaf : Leaf) (t : Subtree) :
    t.update store config leaf = (do
      let n ← t.resolve store config
      match (n.val.gap leaf.key).found? leaf.key, (n.val.gap leaf.key).subtree with
      | some (_, rest), _ =>
        return n.val.withEntries { n.val.gap leaf.key with after := .leaf leaf :: rest }.entries
      | none, some below => do
        let child ← below.update store config leaf
        return n.val.withEntries ((n.val.gap leaf.key).fill [.tree (.resolved child)])
      | none, none => throw (.keyNotFound leaf.key)) := by
  rw [update]
  refine bind_congr fun n => ?_
  dsimp only
  split
  · next hfound => rw [hfound]
  · next hfound hsubtree => rw [hfound, hsubtree]
  · next hfound hsubtree => rw [hfound, hsubtree]

theorem delete_eq (key : String) (t : Subtree) :
    t.delete store config key = (do
      let n ← t.resolve store config
      match (n.val.gap key).found? key, (n.val.gap key).subtree with
      | some (_, .tree right :: rest), some left => do
        let merged ← left.merge store config right
        return n.val.withEntries ((n.val.gap key).before ++ .tree (.resolved merged) :: rest)
      | some (_, rest), _ => return n.val.withEntries { n.val.gap key with after := rest }.entries
      | none, some below => do
        let child ← below.delete store config key
        return n.val.withEntries
          ((n.val.gap key).fill (if child.entries.isEmpty then [] else [.tree (.resolved child)]))
      | none, none => throw (.keyNotFound key)) := by
  rw [delete]
  refine bind_congr fun n => ?_
  dsimp only
  split
  · next hfound hsubtree => rw [hfound, hsubtree]
  · next hfound hother =>
    rw [hfound]
    split
    · next heq hsubtree =>
      cases heq
      exact (hother _ _ _ hsubtree rfl).elim
    · next heq _ =>
      cases heq
      rfl
    · next heq _ => cases heq
    · next heq _ => cases heq
  · next hfound hsubtree => rw [hfound, hsubtree]
  · next hfound hsubtree => rw [hfound, hsubtree]

theorem trim_eq (t : Subtree) (node : Node) (covers : t.Covers node) :
    t.trim store config node covers = (match node.entries with
      | [.tree only] => do
        let n ← only.resolve store config
        only.trim store config n.val n.property
      | _ => return node) := by
  rw [trim]
  split
  · next only hentries =>
    conv => rhs; rw [hentries]
  · next hother =>
    split
    · next hentries => exact (hother _ hentries).elim
    · rfl

end Subtree

theorem Tree.get?_of_isValid {tree : Tree} {store : Blockstore Id} {key : String}
    (hvalid : Key.isValid key) :
    tree.get? store key = tree.root.get? store tree.config key := by
  unfold Tree.get?
  rw [if_pos hvalid]

end MerkleSearch
