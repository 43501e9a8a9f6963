import TensorGraph.Wire.Error

/-!
# Variable-length integers

A number below 2 ^ 64 is written in groups of seven bits, least significant group first, with the
high bit of a byte set when another byte follows.  A reader accepts at most ten bytes, of which the
tenth may hold one bit only.  Encodings that are longer than necessary are accepted.
-/

namespace TensorGraph
namespace Wire
namespace Varint

/-- Write a number in groups of seven bits. -/
def write (n : Nat) : Bytes :=
  if n < 128 then [UInt8.ofNat n] else UInt8.ofNat (n % 128 + 128) :: write (n / 128)
termination_by n
decreasing_by omega

/-- The number of bytes that `write` gives for a number. -/
def size (n : Nat) : Nat :=
  if n < 128 then 1 else 1 + size (n / 128)
termination_by n
decreasing_by omega

theorem length_write (n : Nat) : (write n).length = size n := by
  induction n using Nat.strongRecOn with
  | ind n ih =>
    unfold write size
    split
    · rfl
    · simp [ih (n / 128) (by omega)]; omega

theorem size_pos (n : Nat) : 0 < size n := by
  unfold size
  split <;> omega

/-- Read the groups of a number when at most `room` more bytes may follow the first of them.  The
last byte that may come holds a single bit. -/
def readGroups : Nat → Bytes → Option (Nat × Bytes)
  | _, [] => none
  | 0, b :: rest => if b.toNat ≤ 1 then some (b.toNat, rest) else none
  | room + 1, b :: rest =>
    if b.toNat < 128 then some (b.toNat, rest)
    else (readGroups room rest).map fun (v, tail) => (b.toNat % 128 + 128 * v, tail)

/-- Read one number and return what follows it.  Only the empty input is an end of message; a number
that is cut off or that does not fit 64 bits is invalid. -/
def read (bytes : Bytes) : Except Fault (Nat × Bytes) :=
  match bytes with
  | [] => .error .endOfMessage
  | _ :: _ =>
    match readGroups 9 bytes with
    | some found => .ok found
    | none => .error .invalidVarint

theorem readGroups_length {room : Nat} {bytes rest : Bytes} {v : Nat}
    (h : readGroups room bytes = some (v, rest)) : rest.length < bytes.length := by
  fun_induction readGroups room bytes generalizing v rest with
  | case1 => simp at h
  | case2 b tail hb => simp at h; simp [h.2]
  | case3 => simp at h
  | case4 room b tail hb => simp at h; simp [h.2]
  | case5 room b tail hb ih =>
    obtain ⟨⟨w, t⟩, hw, hp⟩ := Option.map_eq_some_iff.1 h
    have := ih hw
    simp at hp
    simp [← hp.2]
    omega

/-- What follows a number is shorter than the input. -/
theorem read_length {bytes rest : Bytes} {v : Nat} (h : read bytes = .ok (v, rest)) :
    rest.length < bytes.length := by
  unfold read at h
  split at h
  · cases h
  · split at h
    · rename_i found hf
      cases h
      exact readGroups_length hf
    · cases h

end Varint
end Wire
end TensorGraph
