import MerkleSearch.Cid.Binary
import MerkleSearch.Multibase

/-!
This module contains the text form of content addresses: base 58 for `v0`, and base 32 after the
letter that stands for it for `v1`.
-/

namespace MerkleSearch

namespace Cid

def toText (c : Cid) : String :=
  match c with
  | .v0 _ _ => Base58.encode c.toBytes
  | .v1 _ _ => "b" ++ Base32.encode c.toBytes

instance : ToString Cid := ⟨toText⟩

def ofText? (text : String) : Option Cid :=
  match text.toList with
  | 'b' :: digits => Base32.decode? digits >>= ofBytes?
  | digits => Base58.decode? digits >>= ofBytes?

def shortText (c : Cid) : String :=
  let text := c.toText.toList
  String.ofList (text.drop (text.length - 8))

end Cid

end MerkleSearch
