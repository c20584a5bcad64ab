import AerospikeBenchmark.Lib.CText

/-!
# Pointers into a C string

A `char*` that is moved without looking can leave its string. Here it is the text ahead of it up to the NUL, or a place beyond the
NUL, from where nothing can be read. A function of the C library reads a string from a pointer up to the NUL and no further.
-/

namespace CText

/-- A `char*` into a string: the text ahead of it, or a place beyond the NUL. -/
inductive Ptr where
  | ahead (s : Text)
  | beyond
deriving DecidableEq, Repr

namespace Ptr

/-- `*p`; none when the read is beyond the NUL. -/
def load : Ptr → Option Char
  | ahead s => some (peek s)
  | beyond => none

/-- The string at `p`, as a function of the C library gets it. -/
def string : Ptr → Option Text
  | ahead s => some s
  | beyond => none

/-- `p + 1`. -/
def succ : Ptr → Ptr
  | ahead (_ :: s) => ahead s
  | ahead [] => beyond
  | beyond => beyond

/-- `p + n`. -/
def add (p : Ptr) : Nat → Ptr
  | 0 => p
  | n + 1 => p.succ.add n

/-- `p == q` for two pointers into one string: as much of it is ahead of both. -/
def same : Ptr → Ptr → Bool
  | ahead s, ahead t => s.length == t.length
  | beyond, beyond => true
  | _, _ => false

@[simp] theorem load_ahead (s : Text) : (ahead s).load = some (peek s) := rfl

@[simp] theorem string_ahead (s : Text) : (ahead s).string = some s := rfl

@[simp] theorem succ_cons (c : Char) (s : Text) : (ahead (c :: s)).succ = ahead s := rfl

@[simp] theorem add_zero (p : Ptr) : p.add 0 = p := rfl

@[simp] theorem add_succ (p : Ptr) (n : Nat) : p.add (n + 1) = p.succ.add n := rfl

@[simp] theorem same_ahead (s t : Text) : (ahead s).same (ahead t) = (s.length == t.length) := rfl

/-- Past a character that is not NUL. -/
theorem succ_of_peek {s : Text} {c : Char} (h : peek s = c) (hc : c ≠ '\x00') : (ahead s).succ = ahead s.tail := by
  rw [eq_cons_of_peek h hc]
  rfl

end Ptr

/-- `if (*p == ' ') p++;` on a pointer. -/
def skipBlankAt (p : Ptr) : Option Ptr := do
  let c ← p.load
  return if c = ' ' then p.succ else p

@[simp]
theorem skipBlankAt_ahead (s : Text) : skipBlankAt (.ahead s) = some (.ahead (skipBlank s)) := by
  by_cases h : peek s = ' '
  · rw [eq_cons_of_peek h (by decide)]
    rfl
  · simp [skipBlankAt, skipBlank_of_ne h, h]

end CText
