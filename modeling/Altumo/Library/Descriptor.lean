import Altumo.Library.CString

/-!
# Descriptors

The two directions of a connection, as `read` and `write` show them. A read returns
some of the bytes that are still to come, at least one while there are any. A write
takes some of the bytes that it is given, or fails.
-/

namespace Descriptor

open CString

/-- The `errno` of a call that failed. -/
abbrev Errno := { n : Int // 0 < n }

/-- What arrives: the bytes, how many of them each read finds beyond the first, and
what the read after the last byte meets, which is the end of the stream or an error. -/
structure Inbox where
  bytes : Text
  pieces : List Nat
  fault : Option Errno
  deriving DecidableEq

/-- A read of at most `size` bytes finds so many, if there are so many. -/
def Inbox.count (i : Inbox) (size : Nat) : Nat :=
  match i.pieces with
  | [] => size
  | extra :: _ => min size (extra + 1)

/-- `read(fd, buffer, size)`. -/
def Inbox.read (i : Inbox) (size : Nat) : Text × Inbox :=
  (i.bytes.take (i.count size), { i with bytes := i.bytes.drop (i.count size), pieces := i.pieces.tail })

theorem Inbox.count_pos (i : Inbox) {size : Nat} (h : 0 < size) : 0 < i.count size := by
  unfold count
  split
  · exact h
  · omega

/-- No byte is lost or invented by a read. -/
theorem Inbox.read_append (i : Inbox) (size : Nat) : (i.read size).1 ++ (i.read size).2.bytes = i.bytes :=
  List.take_append_drop _ _

@[simp] theorem Inbox.read_fault (i : Inbox) (size : Nat) : (i.read size).2.fault = i.fault := rfl

/-- A read of at least one byte returns nothing only when nothing is to come. -/
theorem Inbox.read_eq_nil_iff (i : Inbox) {size : Nat} (h : 0 < size) : (i.read size).1 = [] ↔ i.bytes = [] := by
  have := i.count_pos h
  simp [read, Nat.pos_iff_ne_zero.mp this]

/-- What a call of `write` returns. -/
inductive WriteResult where
  | wrote : (count : Nat) → WriteResult
  | failed : Errno → WriteResult
  deriving DecidableEq

/-- What has been sent, and what the next writes return. Later writes take everything. -/
structure Outbox where
  sent : Text
  results : List WriteResult
  deriving DecidableEq

/-- No write is going to fail. -/
def Outbox.Reliable (o : Outbox) : Prop := ∀ r ∈ o.results, ∃ count, r = .wrote count

structure Connection where
  inbox : Inbox
  outbox : Outbox
  deriving DecidableEq

end Descriptor
