import Mathlib.Data.List.Basic
import Mathlib.Tactic

/-!
# Loops over arrays of repeated entries

An array whose entries stand for several elements each is often walked by a loop that counts elements and not entries: it goes on
while the count, a 32-bit number, is below the number of elements. Whether it stays in the array depends on the sum of the
repetitions.
-/

namespace CountLoop

variable {m : Type → Type} [Monad m] {α σ : Type} (repeats : α → Nat) (body : σ → α → m σ) (leave : m σ)

/-- `for (i = 0, cnt = 0; cnt < length; i++) { ... cnt += a[i].repeats; }`, from an entry and a count on. A loop that leaves the array
ends with `leave`. -/
def countLoop (length : Nat) : (cnt : Nat) → List α → σ → m σ
  | cnt, [], s => if cnt < length then leave else pure s
  | cnt, a :: as, s => if cnt < length then body s a >>= countLoop length ((cnt + repeats a) % 2 ^ 32) as else pure s

/-- When every entry stands for an element and the repetitions add up to the length, the loop runs its body on every entry, in
order, and ends there. -/
theorem countLoop_eq_foldlM {length : Nat} (hlt : length < 2 ^ 32) {as : List α} (hpos : ∀ a ∈ as, 1 ≤ repeats a) {cnt : Nat}
    (hsum : cnt + (as.map repeats).sum = length) (s : σ) : countLoop repeats body leave length cnt as s = as.foldlM body s := by
  induction as generalizing cnt s with
  | nil =>
    rw [List.map_nil, List.sum_nil] at hsum
    rw [countLoop, if_neg (by omega), List.foldlM_nil]
  | cons a as ih =>
    have hone := hpos a List.mem_cons_self
    rw [List.map_cons, List.sum_cons] at hsum
    rw [countLoop, if_pos (by omega), List.foldlM_cons, Nat.mod_eq_of_lt (by omega)]
    congr 1
    funext t
    exact ih (fun b hb => hpos b (List.mem_cons_of_mem _ hb)) (by omega) t

end CountLoop
