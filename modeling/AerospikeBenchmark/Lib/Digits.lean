import Mathlib.Data.Nat.Digits.Lemmas
import Mathlib.Tactic.IntervalCases
import Mathlib.Tactic.Ring

/-!
# Digits and byte vectors

The first digits of a number in a base, and numbers used as vectors of bytes: `pack f as` holds the byte `f a` for each `a`, the
first one lowest. Arithmetic on packed bytes is done byte by byte as long as no byte overflows.
-/

namespace Digits

/-- The `m` lowest digits of `n` in base `b`, least significant first. -/
def lowDigits (b : Nat) : (m n : Nat) → List Nat
  | 0, _ => []
  | m + 1, n => n % b :: lowDigits b m (n / b)

@[simp] theorem length_lowDigits (b m n : Nat) : (lowDigits b m n).length = m := by
  induction m generalizing n with
  | zero => rfl
  | succ m ih => rw [lowDigits, List.length_cons, ih]

theorem lt_of_mem_lowDigits {b m n d : Nat} (hb : 0 < b) (hd : d ∈ lowDigits b m n) : d < b := by
  induction m generalizing n with
  | zero => simp [lowDigits] at hd
  | succ m ih =>
    rcases List.mem_cons.mp hd with h | h
    · rw [h]
      exact Nat.mod_lt _ hb
    · exact ih h

theorem lowDigits_append (b i j n : Nat) : lowDigits b i n ++ lowDigits b j (n / b ^ i) = lowDigits b (i + j) n := by
  induction i generalizing n with
  | zero => simp [lowDigits]
  | succ i ih =>
    rw [Nat.succ_add, lowDigits, lowDigits, List.cons_append, pow_succ', ← Nat.div_div_eq_div_mul, ih]

section Pack

variable {α : Type*} {f g : α → Nat} {as : List α}

/-- The number whose bytes are the values of `f`. -/
def pack (f : α → Nat) (as : List α) : Nat := Nat.ofDigits 256 (as.map f)

theorem pack_cons (f : α → Nat) (a : α) (as : List α) : pack f (a :: as) = f a + 256 * pack f as := rfl

theorem pack_append (f : α → Nat) (as bs : List α) : pack f (as ++ bs) = pack f as + 256 ^ as.length * pack f bs := by
  rw [pack, List.map_append, Nat.ofDigits_append, List.length_map, pack, pack]

theorem pack_lt (hf : ∀ a ∈ as, f a < 256) : pack f as < 256 ^ as.length := by
  have h := Nat.ofDigits_lt_base_pow_length (b := 256) (l := as.map f) (by decide)
  rw [List.length_map] at h
  refine h ?_
  intro x hx
  obtain ⟨a, ha, rfl⟩ := List.mem_map.mp hx
  exact hf a ha

theorem pack_add : pack f as + pack g as = pack (fun a => f a + g a) as := by
  induction as with
  | nil => rfl
  | cons a as ih =>
    rw [pack_cons, pack_cons, pack_cons, ← ih]
    ring

theorem pack_shiftLeft (k : Nat) : pack f as <<< k = pack (fun a => f a <<< k) as := by
  induction as with
  | nil => exact Nat.zero_shiftLeft k
  | cons a as ih =>
    rw [pack_cons, pack_cons, ← ih]
    simp only [Nat.shiftLeft_eq]
    ring

/-- A bitwise operation that keeps zero works on the low byte and on the rest apart. -/
theorem bitwise_byte (op : Nat → Nat → Nat) (bit : Bool → Bool → Bool)
    (hop : ∀ x y i, (op x y).testBit i = bit (x.testBit i) (y.testBit i)) (hlt : ∀ x < 256, ∀ y < 256, op x y < 256)
    {x y : Nat} (hx : x < 256) (hy : y < 256) (X Y : Nat) :
    op (x + 256 * X) (y + 256 * Y) = op x y + 256 * op X Y := by
  have split : ∀ z < 256, ∀ Z i, (z + 256 * Z).testBit i = if i < 8 then z.testBit i else Z.testBit (i - 8) := by
    intro z hz Z i
    rw [Nat.add_comm]
    exact Nat.testBit_two_pow_mul_add Z (i := 8) hz i
  apply Nat.eq_of_testBit_eq
  intro i
  rw [hop, split x hx, split y hy, split _ (hlt x hx y hy), hop, hop]
  split <;> rfl

theorem pack_and (hf : ∀ a ∈ as, f a < 256) (hg : ∀ a ∈ as, g a < 256) :
    pack f as &&& pack g as = pack (fun a => f a &&& g a) as := by
  induction as with
  | nil => exact Nat.and_zero 0
  | cons a as ih =>
    have hlow := bitwise_byte (fun x y => x &&& y) (fun x y => x && y) Nat.testBit_and
      (fun x _ y hy => Nat.and_lt_two_pow (n := 8) x hy) (hf a List.mem_cons_self) (hg a List.mem_cons_self)
    rw [pack_cons, pack_cons, pack_cons, hlow, ih (fun b hb => hf b (List.mem_cons_of_mem _ hb))
      (fun b hb => hg b (List.mem_cons_of_mem _ hb))]

theorem pack_or (hf : ∀ a ∈ as, f a < 256) (hg : ∀ a ∈ as, g a < 256) :
    pack f as ||| pack g as = pack (fun a => f a ||| g a) as := by
  induction as with
  | nil => exact Nat.or_zero 0
  | cons a as ih =>
    have hlow := bitwise_byte (fun x y => x ||| y) (fun x y => x || y) Nat.testBit_or
      (fun x hx y hy => Nat.or_lt_two_pow (n := 8) hx hy) (hf a List.mem_cons_self) (hg a List.mem_cons_self)
    rw [pack_cons, pack_cons, pack_cons, hlow, ih (fun b hb => hf b (List.mem_cons_of_mem _ hb))
      (fun b hb => hg b (List.mem_cons_of_mem _ hb))]

/-- Shifting right and keeping the lowest bit of each byte reads one bit of each byte. -/
theorem pack_shiftRight_and_one {k : Nat} (hk : k < 8) (hf : ∀ a ∈ as, f a < 256) :
    (pack f as >>> k) &&& pack (fun _ => 1) as = pack (fun a => (f a >>> k) &&& 1) as := by
  induction as with
  | nil => exact Nat.and_zero _
  | cons a as ih =>
    have ha : f a < 256 := hf a List.mem_cons_self
    have hsplit : ∀ z, z &&& (1 + 256 * pack (fun _ => 1) as) = (z % 256 &&& 1) + 256 * (z / 256 &&& pack (fun _ => 1) as) := by
      intro z
      have hlow := bitwise_byte (fun x y => x &&& y) (fun x y => x && y) Nat.testBit_and
        (fun x _ y hy => Nat.and_lt_two_pow (n := 8) x hy) (Nat.mod_lt z (by decide : 0 < 256)) (by decide : 1 < 256) (z / 256)
        (pack (fun _ => 1) as)
      rwa [Nat.mod_add_div] at hlow
    have hhigh : (f a + 256 * pack f as) >>> k / 256 = pack f as >>> k := by
      rw [Nat.shiftRight_eq_div_pow, Nat.shiftRight_eq_div_pow, Nat.div_div_eq_div_mul, Nat.mul_comm (2 ^ k),
        ← Nat.div_div_eq_div_mul]
      congr 1
      omega
    have hbit : ((f a + 256 * pack f as) >>> k % 256 &&& 1) = (f a >>> k &&& 1) := by
      simp only [Nat.and_one_is_mod, Nat.shiftRight_eq_div_pow]
      interval_cases k <;> omega
    rw [pack_cons, pack_cons, pack_cons, hsplit, hhigh, hbit, ih (fun b hb => hf b (List.mem_cons_of_mem _ hb))]

end Pack

/-- `c |= x << (8 * k)` puts a byte above the `k` bytes that are there. -/
theorem or_shiftLeft_byte {c k : Nat} (hc : c < 256 ^ k) (x : Nat) : c ||| x <<< (k * 8) = c + 256 ^ k * x := by
  have h256 : 256 ^ k = 2 ^ (k * 8) := by
    rw [Nat.mul_comm, pow_mul]
    norm_num
  rw [Nat.or_comm, ← Nat.shiftLeft_add_eq_or_of_lt (h256 ▸ hc), Nat.shiftLeft_eq, h256]
  ring

end Digits
