import Mathlib.Data.Nat.Size
import Mathlib.Tactic.Ring
import TensorGraph.Wire.Varint

/-!
# Exact encodings of numbers

Input:

* a 64-bit number, or the bytes of a buffer that is read from its front.

Algorithm:

* `write` gives a number in groups of seven bits, and `size` counts these groups;
* `readInPlace` puts the groups of at most ten bytes together by shifts, and only then moves the
  buffer behind them.  It does what `read` does (`run_readInPlace`).

Encodings are described apart from both: `Encodes` says which bytes stand for a number, and `Groups`
follows them byte by byte.

Main results:

* `Varint.read_eq_ok_iff`: exactly the encodings are read;
* `Varint.size_le_of_encodes`: no encoding of a number is shorter than the one that is written;
* `Varint.encoded_exactly`: all of it for the buffer in place.
-/

namespace TensorGraph
namespace Wire
namespace Varint

/-! ## Encodings -/

/-- The number that groups of seven bits stand for, the least significant group first. -/
def number : Bytes → Nat
  | [] => 0
  | b :: rest => b.toNat % 128 + 128 * number rest

/-- Whether bytes are an encoding of a number: at most nine bytes that announce another one and a last
byte that does not, which stand for this number and no other, as it fits 64 bits. -/
structure Encodes (raw : Bytes) (v : Nat) : Prop where
  groups : ∃ front last, raw = front ++ [last] ∧ front.length ≤ 9 ∧
    (∀ b ∈ front, 128 ≤ b.toNat) ∧ last.toNat < 128
  value : number raw = v
  fits : v < 2 ^ 64

/-- Whether bytes are the groups of a number, the last of which has its high bit clear, when at most
`room` more bytes may follow the first of them and only one bit of the last one that may come is used.
-/
inductive Groups : Nat → Bytes → Nat → Prop where
  | last {room : Nat} {b : UInt8} (clear : b.toNat < 128) (fits : b.toNat < 2 ^ (7 * room + 1)) :
      Groups room [b] b.toNat
  | more {room : Nat} {b : UInt8} {raw : Bytes} {v : Nat} (set : 128 ≤ b.toNat)
      (rest : Groups room raw v) : Groups (room + 1) (b :: raw) (b.toNat % 128 + 128 * v)

theorem number_lt (raw : Bytes) : number raw < 128 ^ raw.length := by
  induction raw with
  | nil => simp [number]
  | cons b rest ih =>
      have hpow : 128 ^ (b :: rest).length = 128 * 128 ^ rest.length := by
        rw [List.length_cons]
        ring
      simp only [number, hpow]
      omega

namespace Groups

variable {room v : Nat} {raw : Bytes}

theorem ne_nil (h : Groups room raw v) : raw ≠ [] := by
  cases h <;> simp

theorem number_eq (h : Groups room raw v) : number raw = v := by
  induction h with
  | last clear fits =>
      simp only [number]
      omega
  | more set rest ih => simp only [number, ih]

theorem lt (h : Groups room raw v) : v < 2 ^ (7 * room + 1) := by
  induction h with
  | last clear fits => exact fits
  | @more room b raw v set rest ih =>
      have hpow : 2 ^ (7 * (room + 1) + 1) = 128 * 2 ^ (7 * room + 1) := by ring
      omega

theorem exists_last (h : Groups room raw v) :
    ∃ front last, raw = front ++ [last] ∧ front.length ≤ room ∧
      (∀ b ∈ front, 128 ≤ b.toNat) ∧ last.toNat < 128 := by
  induction h with
  | @last room b clear fits => exact ⟨[], b, rfl, Nat.zero_le _, by simp, clear⟩
  | @more room b raw v set rest ih =>
      obtain ⟨front, last, rfl, hlen, hset, hclear⟩ := ih
      refine ⟨b :: front, last, rfl, Nat.succ_le_succ hlen, ?_, hclear⟩
      intro x hx
      cases hx with
      | head => exact set
      | tail _ hx => exact hset x hx

/-- Bytes that are formed like an encoding are the groups of their number if it fits. -/
theorem of_last {front : Bytes} {last : UInt8} (hlen : front.length ≤ room)
    (hset : ∀ b ∈ front, 128 ≤ b.toNat) (hclear : last.toNat < 128)
    (hfits : number (front ++ [last]) < 2 ^ (7 * room + 1)) :
    Groups room (front ++ [last]) (number (front ++ [last])) := by
  induction front generalizing room with
  | nil =>
      have hvalue : number ([] ++ [last]) = last.toNat := by
        simp only [List.nil_append, number]
        omega
      rw [hvalue] at hfits ⊢
      exact .last hclear hfits
  | cons b rest ih =>
      cases room with
      | zero => cases hlen
      | succ room =>
          have hpow : 2 ^ (7 * (room + 1) + 1) = 128 * 2 ^ (7 * room + 1) := by ring
          have hrest : number (rest ++ [last]) < 2 ^ (7 * room + 1) := by
            rw [List.cons_append, number, hpow] at hfits
            omega
          have hgroups := ih (Nat.le_of_succ_le_succ hlen)
            (fun x hx => hset x (List.mem_cons_of_mem _ hx)) hrest
          exact .more (hset b List.mem_cons_self) hgroups

end Groups

/-- Ten groups, of which the tenth has one bit, are 64 bits. -/
theorem groups_nine_iff {raw : Bytes} {v : Nat} : Groups 9 raw v ↔ Encodes raw v := by
  constructor
  · intro h
    exact ⟨h.exists_last, h.number_eq, h.lt⟩
  · rintro ⟨⟨front, last, rfl, hlen, hset, hclear⟩, rfl, hfits⟩
    exact .of_last hlen hset hclear hfits

theorem Encodes.ne_nil {raw : Bytes} {v : Nat} (h : Encodes raw v) : raw ≠ [] :=
  (groups_nine_iff.2 h).ne_nil

/-! ## Reading -/

/-- The groups in front of a buffer are read, and nothing else. -/
theorem readGroups_eq_some_iff {room v : Nat} {bytes rest : Bytes} :
    readGroups room bytes = some (v, rest) ↔ ∃ raw, bytes = raw ++ rest ∧ Groups room raw v := by
  constructor
  · intro h
    fun_induction readGroups room bytes generalizing v rest with
    | case1 => cases h
    | case2 b tail hb =>
        cases h
        exact ⟨[b], rfl, .last (by omega) (by omega)⟩
    | case3 => cases h
    | case4 room b tail hb =>
        cases h
        have hpow : 2 ^ 8 ≤ 2 ^ (7 * (room + 1) + 1) := Nat.pow_le_pow_right (by decide) (by omega)
        exact ⟨[b], rfl, .last hb (Nat.lt_of_lt_of_le b.toNat_lt hpow)⟩
    | case5 room b tail hb ih =>
        obtain ⟨⟨w, last⟩, hw, heq⟩ := Option.map_eq_some_iff.1 h
        cases heq
        obtain ⟨raw, rfl, hgroups⟩ := ih hw
        exact ⟨b :: raw, rfl, .more (by omega) hgroups⟩
  · rintro ⟨raw, rfl, h⟩
    induction h with
    | @last room b clear fits =>
        cases room with
        | zero =>
            have one : b.toNat ≤ 1 := by omega
            simp only [List.cons_append, List.nil_append, readGroups, if_pos one]
        | succ room => simp only [List.cons_append, List.nil_append, readGroups, if_pos clear]
    | @more room b raw v set groups ih =>
        rw [List.cons_append, readGroups, if_neg (by omega), ih, Option.map_some]

theorem read_cons (b : UInt8) (bytes : Bytes) :
    read (b :: bytes) = (readGroups 9 (b :: bytes)).elim (.error .invalidVarint) .ok := by
  simp only [read]
  cases readGroups 9 (b :: bytes) <;> rfl

/-- A number is read exactly when the buffer starts with an encoding of it. -/
theorem read_eq_ok_iff {v : Nat} {bytes rest : Bytes} :
    read bytes = .ok (v, rest) ↔ ∃ raw, bytes = raw ++ rest ∧ Encodes raw v := by
  simp only [← groups_nine_iff, ← readGroups_eq_some_iff]
  cases bytes with
  | nil => simp [read, readGroups]
  | cons b tail =>
      rw [read_cons]
      cases readGroups 9 (b :: tail) <;> simp

/-- A number is not read exactly when the buffer does not start with an encoding; only an empty buffer is
an end of message. -/
theorem read_eq_error_iff {bytes : Bytes} {fault : Fault} :
    read bytes = .error fault ↔
      (¬∃ raw rest v, bytes = raw ++ rest ∧ Encodes raw v) ∧
        fault = if bytes = [] then .endOfMessage else .invalidVarint := by
  have unread : (¬∃ raw rest v, bytes = raw ++ rest ∧ Encodes raw v) ↔
      ¬∃ p, read bytes = .ok p := by
    refine not_congr ?_
    constructor
    · rintro ⟨raw, rest, v, heq, h⟩
      exact ⟨(v, rest), read_eq_ok_iff.2 ⟨raw, heq, h⟩⟩
    · rintro ⟨⟨v, rest⟩, h⟩
      obtain ⟨raw, heq, h⟩ := read_eq_ok_iff.1 h
      exact ⟨raw, rest, v, heq, h⟩
  rw [unread]
  cases bytes with
  | nil => simp [read, eq_comm]
  | cons b tail =>
      rw [read_cons]
      cases readGroups 9 (b :: tail) <;> simp [eq_comm]

/-! ## Writing -/

/-- A number below 128 is one group. -/
theorem Groups.single {room n : Nat} (clear : n < 128) (fits : n < 2 ^ (7 * room + 1)) :
    Groups room [UInt8.ofNat n] n := by
  have hn : (UInt8.ofNat n).toNat = n := by
    rw [UInt8.toNat_ofNat']
    omega
  have hgroups : Groups room [UInt8.ofNat n] (UInt8.ofNat n).toNat :=
    .last (by omega) (by rwa [hn])
  rwa [hn] at hgroups

theorem groups_write {room n : Nat} (h : n < 2 ^ (7 * room + 1)) : Groups room (write n) n := by
  induction room generalizing n with
  | zero =>
      have clear : n < 128 := by omega
      rw [write, if_pos clear]
      exact .single clear h
  | succ room ih =>
      rw [write]
      split
      · rename_i clear
        exact .single clear h
      · have hb : (UInt8.ofNat (n % 128 + 128)).toNat = n % 128 + 128 := by
          rw [UInt8.toNat_ofNat']
          omega
        have hrest : n / 128 < 2 ^ (7 * room + 1) := by
          refine Nat.div_lt_of_lt_mul (Nat.lt_of_lt_of_eq h ?_)
          ring
        have hgroups := Groups.more (b := UInt8.ofNat (n % 128 + 128)) (by omega) (ih hrest)
        have heq : (UInt8.ofNat (n % 128 + 128)).toNat % 128 + 128 * (n / 128) = n := by omega
        rwa [heq] at hgroups

/-- What is written is an encoding. -/
theorem encodes_write {n : Nat} (h : n < 2 ^ 64) : Encodes (write n) n :=
  groups_nine_iff.1 (groups_write h)

/-- A number that fits 64 bits is read back. -/
theorem read_write {n : Nat} (h : n < 2 ^ 64) (rest : Bytes) :
    read (write n ++ rest) = .ok (n, rest) :=
  read_eq_ok_iff.2 ⟨write n, rfl, encodes_write h⟩

/-- A number is read in the same way whatever follows it. -/
theorem read_local {v : Nat} {bytes rest : Bytes} (h : read bytes = .ok (v, rest)) :
    ∃ raw, raw ≠ [] ∧ bytes = raw ++ rest ∧ ∀ rest', read (raw ++ rest') = .ok (v, rest') := by
  obtain ⟨raw, heq, hraw⟩ := read_eq_ok_iff.1 h
  exact ⟨raw, hraw.ne_nil, heq, fun rest' => read_eq_ok_iff.2 ⟨raw, rfl, hraw⟩⟩

/-! ## Lengths -/

theorem size_le_iff {n k : Nat} : size n ≤ k + 1 ↔ n < 128 ^ (k + 1) := by
  induction k generalizing n with
  | zero =>
      have := size_pos (n / 128)
      unfold size
      split <;> omega
  | succ k ih =>
      have hpow : 128 ^ (k + 1 + 1) = 128 ^ (k + 1) * 128 := by ring
      have hpos : 128 ≤ 128 ^ (k + 1 + 1) := by
        have : 0 < 128 ^ (k + 1) := Nat.pow_pos (by decide)
        omega
      unfold size
      split
      · omega
      · have := @ih (n / 128)
        rw [Nat.div_lt_iff_lt_mul (by decide), ← hpow] at this
        omega

/-- No encoding of a number is shorter than the one that is written. -/
theorem size_le_of_encodes {raw : Bytes} {v : Nat} (h : Encodes raw v) : size v ≤ raw.length := by
  have hlt := number_lt raw
  rw [h.value] at hlt
  cases hlen : raw.length with
  | zero => exact absurd (List.length_eq_zero_iff.1 hlen) h.ne_nil
  | succ k =>
      rw [hlen] at hlt
      exact size_le_iff.2 hlt

/-- The number of significant bits, at least one, in groups of seven. -/
theorem size_eq_bits (n : Nat) : size n = ((n ||| 1).size + 6) / 7 := by
  have same : ∀ k, size n ≤ k + 1 ↔ ((n ||| 1).size + 6) / 7 ≤ k + 1 := by
    intro k
    have hor : n ||| 1 < 2 ^ (7 * (k + 1)) ↔ n < 2 ^ (7 * (k + 1)) := by
      constructor
      · intro h
        exact Nat.lt_of_le_of_lt Nat.left_le_or h
      · intro h
        have hone : 1 < 2 ^ (7 * (k + 1)) := Nat.one_lt_two_pow (by omega)
        exact Nat.or_lt_two_pow h hone
    rw [size_le_iff, show (128 : Nat) = 2 ^ 7 from rfl, ← Nat.pow_mul, ← hor, ← Nat.size_le]
    omega
  have hpos := size_pos n
  have hbits : 0 < (n ||| 1).size := Nat.size_pos.2 (Nat.lt_of_lt_of_le Nat.one_pos Nat.right_le_or)
  have hle := (same (((n ||| 1).size + 6) / 7 - 1)).2 (by omega)
  have hge := (same (size n - 1)).1 (by omega)
  omega

theorem size_le_ten {n : Nat} (h : n < 2 ^ 64) : size n ≤ 10 :=
  size_le_iff.2 (Nat.lt_trans h (by decide))

/-! ## Reading in place -/

/-- Put the groups of bytes together, the first of which is the one at an index.  It is returned with
the index behind the last group. -/
def gather (value : UInt64) (index : Nat) : Bytes → Option (UInt64 × Nat)
  | [] => none
  | b :: rest =>
    let value := value ||| (b &&& 0x7f).toUInt64 <<< UInt64.ofNat (index * 7)
    if b ≤ 0x7f then
      -- only one bit of the tenth byte is left
      if index + 1 = 10 ∧ 0x01 < b then none else some (value, index + 1)
    else gather value (index + 1) rest

/-- Read a number from the front of a buffer, which is moved behind it. -/
def readInPlace : EStateM Fault Bytes UInt64 := do
  let buffer ← get
  if buffer.isEmpty then throw .endOfMessage
  match gather 0 0 (buffer.take 10) with
  | some (value, used) =>
    set (buffer.drop used)
    return value
  | none => throw .invalidVarint

/-- How a reading ends that gives a value and the rest of the buffer or fails, when the buffer is kept in
place. -/
def settle (buffer : Bytes) : Except Fault (Nat × Bytes) → EStateM.Result Fault Bytes UInt64
  | .ok found => .ok (UInt64.ofNat found.1) found.2
  | .error fault => .error fault buffer

theorem toNat_or_shift {value : UInt64} {b : UInt8} {index : Nat} (hindex : index ≤ 9)
    (hvalue : value.toNat < 2 ^ (index * 7)) (hfits : b.toNat % 128 * 2 ^ (index * 7) < 2 ^ 64) :
    (value ||| (b &&& 0x7f).toUInt64 <<< UInt64.ofNat (index * 7)).toNat =
      value.toNat + b.toNat % 128 * 2 ^ (index * 7) := by
  have hlow : (b &&& 0x7f).toNat = b.toNat % 128 := by
    rw [UInt8.toNat_and]
    exact Nat.and_two_pow_sub_one_eq_mod b.toNat 7
  have hshift : (UInt64.ofNat (index * 7)).toNat % 64 = index * 7 := by
    rw [UInt64.toNat_ofNat']
    omega
  rw [UInt64.toNat_or, UInt64.toNat_shiftLeft, UInt8.toNat_toUInt64, hlow, hshift, Nat.shiftLeft_eq,
    Nat.mod_eq_of_lt hfits, Nat.or_comm, Nat.mul_comm,
    ← Nat.two_pow_add_eq_or_of_lt hvalue (b.toNat % 128), Nat.add_comm]

/-- Shifts put the same groups together, as long as the buffer has bytes that may belong to the number.
-/
theorem gather_eq {value : UInt64} {index room : Nat} (bytes : Bytes) (h : index + room = 9)
    (hvalue : value.toNat < 2 ^ (index * 7)) :
    gather value index (bytes.take (room + 1)) =
      (readGroups room bytes).map fun found =>
        (UInt64.ofNat (value.toNat + found.1 * 2 ^ (index * 7)),
          index + (bytes.length - found.2.length)) := by
  induction room generalizing value index bytes with
  | zero =>
      obtain rfl : index = 9 := h
      cases bytes with
      | nil => rfl
      | cons b tail =>
          by_cases hone : b.toNat ≤ 1
          · have hle : b ≤ 0x7f := UInt8.le_iff_toNat_le.2 (Nat.le_trans hone (by decide))
            have hnot : ¬0x01 < b := fun hlt => absurd (UInt8.lt_iff_toNat_lt.1 hlt) (by simpa using hone)
            have hsum := toNat_or_shift (b := b) (Nat.le_refl 9) hvalue (by omega)
            have hb : b.toNat % 128 = b.toNat := by omega
            rw [hb] at hsum
            rw [readGroups, if_pos hone, List.take_succ_cons, gather, if_pos hle,
              if_neg fun hten => hnot hten.2, Option.map_some, ← hsum, UInt64.ofNat_toNat]
            simp
          · have hlt : 0x01 < b := UInt8.lt_iff_toNat_lt.2 (by simpa using hone)
            rw [readGroups, if_neg hone, List.take_succ_cons, gather, Option.map_none]
            split
            · rw [if_pos ⟨rfl, hlt⟩]
            · rfl
  | succ room ih =>
      cases bytes with
      | nil => rfl
      | cons b tail =>
          have hpow : 2 ^ ((index + 1) * 7) = 128 * 2 ^ (index * 7) := by ring
          have hbound : 2 ^ ((index + 1) * 7) ≤ 2 ^ 63 :=
            Nat.pow_le_pow_right (by decide) (by omega)
          have hpos : 0 < 2 ^ (index * 7) := Nat.two_pow_pos _
          have hgroup : b.toNat % 128 * 2 ^ (index * 7) ≤ 127 * 2 ^ (index * 7) :=
            Nat.mul_le_mul_right _ (by omega)
          have hsum := toNat_or_shift (b := b) (show index ≤ 9 by omega) hvalue (by omega)
          rw [readGroups, List.take_succ_cons, gather]
          by_cases hclear : b.toNat < 128
          · have hle : b ≤ 0x7f := UInt8.le_iff_toNat_le.2 (by simpa using Nat.le_of_lt_succ hclear)
            rw [Nat.mod_eq_of_lt hclear] at hsum
            rw [if_pos hclear, if_pos hle, if_neg (by omega), Option.map_some, ← hsum,
              UInt64.ofNat_toNat]
            simp
          · have hnle : ¬b ≤ 0x7f := fun hle => hclear
              (Nat.lt_succ_of_le (by simpa using UInt8.le_iff_toNat_le.1 hle))
            rw [if_neg hclear, if_neg hnle, ih tail (by omega) (by omega), hsum, Option.map_map]
            refine Option.map_congr fun found hfound => ?_
            have hshorter := readGroups_length hfound
            have hnumber : value.toNat + b.toNat % 128 * 2 ^ (index * 7) +
                found.1 * 2 ^ ((index + 1) * 7) =
                value.toNat + (b.toNat % 128 + 128 * found.1) * 2 ^ (index * 7) := by
              rw [hpow]
              ring
            have hused : index + 1 + (tail.length - found.2.length) =
                index + ((b :: tail).length - found.2.length) := by
              rw [List.length_cons]
              omega
            simp only [Function.comp_apply, hnumber, hused]

/-- Reading in place reads the same number, and moves the buffer only when there is one. -/
theorem run_readInPlace (buffer : Bytes) : readInPlace.run buffer = settle buffer (read buffer) := by
  cases buffer with
  | nil => rfl
  | cons b tail =>
      have hgather := @gather_eq 0 0 9 (b :: tail) rfl (by decide)
      unfold readInPlace
      simp only [EStateM.run_bind, EStateM.run_get, List.isEmpty_cons]
      rw [hgather, read_cons]
      cases hfound : readGroups 9 (b :: tail) with
      | none => rfl
      | some found =>
          obtain ⟨raw, heq, -⟩ := readGroups_eq_some_iff.1 hfound
          have hdrop : (b :: tail).drop (0 + ((b :: tail).length - found.2.length)) = found.2 := by
            rw [heq, List.length_append, Nat.add_sub_cancel, Nat.zero_add, List.drop_left]
          have hvalue : (0 : UInt64).toNat + found.1 * 2 ^ (0 * 7) = found.1 := by simp
          simp only [Option.map_some, hdrop, hvalue]
          rfl

theorem run_readInPlace_eq_ok_iff {buffer rest : Bytes} {v : UInt64} :
    readInPlace.run buffer = .ok v rest ↔ ∃ raw, buffer = raw ++ rest ∧ Encodes raw v.toNat := by
  rw [run_readInPlace, ← read_eq_ok_iff]
  cases hread : read buffer with
  | error fault => simp [settle]
  | ok found =>
      obtain ⟨raw, -, h⟩ := read_eq_ok_iff.1 hread
      have hv : UInt64.ofNat found.1 = v ↔ found.1 = v.toNat := by
        rw [← UInt64.toNat_inj, UInt64.toNat_ofNat_of_lt' h.fits]
      simp [settle, hv, Prod.ext_iff]

theorem run_readInPlace_eq_error_iff {buffer after : Bytes} {fault : Fault} :
    readInPlace.run buffer = .error fault after ↔
      after = buffer ∧ (¬∃ raw rest v, buffer = raw ++ rest ∧ Encodes raw v) ∧
        fault = if buffer = [] then .endOfMessage else .invalidVarint := by
  rw [run_readInPlace, ← read_eq_error_iff]
  cases read buffer with
  | error fault' => simp [settle, and_comm, eq_comm]
  | ok found => simp [settle]

/-- Numbers are encoded and read exactly.  What is written is read back, and the buffer keeps what follows
it.  What is written has as many bytes as it takes groups of seven bits, from one to ten of them, and
no other encoding of the number is shorter.  A buffer is read exactly when it starts with an encoding,
and otherwise it stays as it is. -/
theorem encoded_exactly :
    (∀ (v : UInt64) (rest : Bytes), readInPlace.run (write v.toNat ++ rest) = .ok v rest) ∧
      (∀ v : UInt64, (write v.toNat).length = size v.toNat ∧
        size v.toNat = ((v.toNat ||| 1).size + 6) / 7 ∧ 1 ≤ size v.toNat ∧ size v.toNat ≤ 10 ∧
        Encodes (write v.toNat) v.toNat ∧
        ∀ raw, Encodes raw v.toNat → (write v.toNat).length ≤ raw.length) ∧
      (∀ (buffer rest : Bytes) (v : UInt64), readInPlace.run buffer = .ok v rest ↔
        ∃ raw, buffer = raw ++ rest ∧ Encodes raw v.toNat) ∧
      (∀ (buffer after : Bytes) (fault : Fault), readInPlace.run buffer = .error fault after ↔
        after = buffer ∧ (¬∃ raw rest v, buffer = raw ++ rest ∧ Encodes raw v) ∧
          fault = if buffer = [] then .endOfMessage else .invalidVarint) ∧
      ∀ buffer, readInPlace.run buffer = settle buffer (read buffer) := by
  refine ⟨fun v rest => ?_, fun v => ?_, fun _ _ _ => run_readInPlace_eq_ok_iff,
    fun _ _ _ => run_readInPlace_eq_error_iff, run_readInPlace⟩
  · exact run_readInPlace_eq_ok_iff.2 ⟨write v.toNat, rfl, encodes_write v.toNat_lt⟩
  · have hlength := length_write v.toNat
    refine ⟨hlength, size_eq_bits v.toNat, size_pos v.toNat, size_le_ten v.toNat_lt,
      encodes_write v.toNat_lt, fun raw hraw => ?_⟩
    rw [hlength]
    exact size_le_of_encodes hraw

/-- The number one with two groups that are not needed: it is longer than the encoding that is written, and
is read all the same. -/
theorem encoded_exactly_one :
    Encodes [0x81, 0x80, 0x00] 1 ∧
      (write (1 : UInt64).toNat).length ≤ [(0x81 : UInt8), 0x80, 0x00].length ∧
      readInPlace.run [0x81, 0x80, 0x00, 0xff] = .ok 1 [0xff] := by
  have padded : Encodes [0x81, 0x80, 0x00] 1 :=
    ⟨⟨[0x81, 0x80], 0x00, rfl, by decide, by simp, by decide⟩, rfl, by decide⟩
  obtain ⟨-, written, found, -⟩ := encoded_exactly
  obtain ⟨-, -, -, -, -, shortest⟩ := written 1
  exact ⟨padded, shortest _ padded, (found _ _ 1).2 ⟨_, rfl, padded⟩⟩

end Varint
end Wire
end TensorGraph
