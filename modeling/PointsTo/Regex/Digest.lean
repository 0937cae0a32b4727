import PointsTo.Regex.Basic

/-!
# What an expression feeds to a hash function

A hash function is fed chunk by chunk. An expression feeds a byte for each of its nodes, which says
what node it is, and then the parts of the node. Only the two sides of a union are digested each by
itself, and the sum of the two digests is fed, so the order of the sides leaves no trace.
-/

namespace PointsTo

/-- A piece of data that is fed to a hash function in one go. -/
inductive Chunk where
  | byte (b : UInt8)
  | word (w : UInt64)
  | bytes (bs : List UInt8)
deriving DecidableEq

namespace Regex

variable {α : Type}

/-- The chunks of an expression, where `letterChunks` are those of a letter and `digest` is the hash
function for the sides of unions. Sums of digests wrap around. -/
def chunks (digest : List Chunk → UInt64) (letterChunks : α → List Chunk) : Regex α → List Chunk
  | letter a => .byte 0 :: letterChunks a
  | alt r s =>
    [.byte 1, .word (digest (r.chunks digest letterChunks) + digest (s.chunks digest letterChunks))]
  | seq r s => .byte 2 :: (r.chunks digest letterChunks ++ s.chunks digest letterChunks)
  | many r => .byte 3 :: r.chunks digest letterChunks
  | epsilon => [.byte 4]
  | empty => [.byte 5]

end Regex

end PointsTo
