import MerkleSearch.Bytes

/-!
This module contains unsigned varints: seven bits a byte, the lowest first, where every byte but the
last has its high bit set. Only the shortest form of a number is accepted.
-/

namespace MerkleSearch

namespace Varint

def encode (n : Nat) : Bytes :=
  if n < 128 then
    [UInt8.ofNat n]
  else
    UInt8.ofNat (n % 128 + 128) :: encode (n / 128)

/--
Reads a varint of at most `size` bytes off the front. A last byte of zero after others is refused,
since the number would be shorter without it.
-/
def read? : (size : Nat) → Bytes → Option (Nat × Bytes)
  | 0, _ | _, [] => none
  | size + 1, b :: rest =>
    if b < 128 then
      some (b.toNat, rest)
    else
      match read? size rest with
      | some (n + 1, rest) => some (128 * (n + 1) + (b.toNat - 128), rest)
      | _ => none

/--
Reads a number of 64 bits. The bits of a tenth byte that do not fit are dropped.
-/
def readWord? (bytes : Bytes) : Option (UInt64 × Bytes) := do
  let (n, rest) ← read? 10 bytes
  return (UInt64.ofNat n, rest)

end Varint

end MerkleSearch
