import Mathlib.Tactic

/-!
# Programs over a source of random words

A program reads 64-bit words one by one from a source it may not have. The source is the finite list of words still to come, or
none when the program was handed a null pointer; running out of words stops the program. What a program does on an infinite
stream is what it does on all long enough prefixes of it (`Delivers`).
-/

namespace Words

/-- Why a program stops without a result. -/
inductive Stop where
  /-- The words given were not enough: the program is still running. -/
  | outOfWords
  /-- A word was asked of a null source. -/
  | nullSource
  /-- An access outside an array or a buffer. -/
  | outOfBounds
  /-- A callee returned the null pointer. -/
  | nullValue
deriving DecidableEq, Repr

/-- The words to come, or no source at all. -/
abbrev Source := Option (List Nat)

/-- A program that reads words. -/
abbrev Gen := StateT Source (Except Stop)

/-- The next word of the source. -/
def nextWord : Gen Nat
  | none => .error .nullSource
  | some [] => .error .outOfWords
  | some (w :: ws) => .ok (w, some ws)

/-- The next `n` words of the source. -/
def nextWords (n : Nat) : Gen (List Nat)
  | none => .error .nullSource
  | some ws => if n ≤ ws.length then .ok (ws.take n, some (ws.drop n)) else .error .outOfWords

/-- Stop with a reason. -/
def stop {α : Type} (e : Stop) : Gen α := fun _ => .error e

/-- The first word that is not below `lo`, all words before it dropped. -/
def firstFrom (lo : Nat) : List Nat → Except Stop (Nat × Source)
  | [] => .error .outOfWords
  | w :: ws => if w < lo then firstFrom lo ws else .ok (w, some ws)

/-- `do { w = next(); } while (w < lo);` -/
def nextFrom (lo : Nat) : Gen Nat
  | none => .error .nullSource
  | some ws => firstFrom lo ws

/-- Run a program `n` times and collect the results. -/
def repeatGen {α : Type} (g : Gen α) : Nat → Gen (List α)
  | 0 => pure []
  | n + 1 => do
    let a ← g
    let as ← repeatGen g n
    pure (a :: as)

/-- Run a program for each element of a list and collect the results. -/
def mapGen {α β : Type} (g : α → Gen β) : List α → Gen (List β)
  | [] => pure []
  | a :: as => do
    let b ← g a
    let bs ← mapGen g as
    pure (b :: bs)

/-! ## Results on a finite source -/

section

variable {α β : Type} {g : Gen α} {f : α → Gen β} {s s' : Source}

@[simp] theorem pure_ok {a b : α} : (pure a : Gen α) s = .ok (b, s') ↔ a = b ∧ s = s' := by
  constructor
  · intro h
    cases h
    exact ⟨rfl, rfl⟩
  · intro h
    obtain ⟨rfl, rfl⟩ := h
    rfl

/-- The rule for sequences: a sequence returns exactly when both parts do. -/
theorem bind_ok {b : β} : (g >>= f) s = .ok (b, s') ↔ ∃ a t, g s = .ok (a, t) ∧ f a t = .ok (b, s') := by
  simp only [bind, StateT.bind, Except.bind]
  cases h : g s with
  | error e => simp
  | ok r =>
    obtain ⟨a, t⟩ := r
    simp

theorem bind_eq_of_ok {a : α} {t : Source} (h : g s = .ok (a, t)) : (g >>= f) s = f a t := by
  simp [bind, StateT.bind, Except.bind, h]

@[simp] theorem map_ok {h : α → β} {b : β} : (h <$> g) s = .ok (b, s') ↔ ∃ a, g s = .ok (a, s') ∧ h a = b := by
  rw [map_eq_pure_bind, bind_ok]
  constructor
  · rintro ⟨a, t, hg, hp⟩
    obtain ⟨rfl, rfl⟩ := pure_ok.mp hp
    exact ⟨a, hg, rfl⟩
  · rintro ⟨a, hg, rfl⟩
    exact ⟨a, s', hg, pure_ok.mpr ⟨rfl, rfl⟩⟩

@[simp] theorem stop_ok {e : Stop} {a : α} : (stop e : Gen α) s = .ok (a, s') ↔ False := by
  simp [stop]

/-- A repeated program returns one result for each run, each of them a result of the program. -/
theorem repeatGen_spec {P : α → Prop} (hg : ∀ s a s', g s = .ok (a, s') → P a) (n : Nat) :
    ∀ s as s', repeatGen g n s = .ok (as, s') → as.length = n ∧ ∀ a ∈ as, P a := by
  induction n with
  | zero =>
    intro s as s' h
    obtain ⟨rfl, -⟩ := pure_ok.mp h
    simp
  | succ n ih =>
    intro s as s' h
    obtain ⟨a, t, h1, h2⟩ := bind_ok.mp h
    obtain ⟨as', t', h3, h4⟩ := bind_ok.mp h2
    obtain ⟨rfl, -⟩ := pure_ok.mp h4
    obtain ⟨hlen, hall⟩ := ih _ _ _ h3
    refine ⟨by simp [hlen], ?_⟩
    simp only [List.mem_cons, forall_eq_or_imp]
    exact ⟨hg _ _ _ h1, hall⟩

/-- A program that returns a fixed result without touching its source does so when repeated. -/
theorem repeatGen_const {a : α} (hg : ∀ s, g s = .ok (a, s)) (n : Nat) (s : Source) :
    repeatGen g n s = .ok (List.replicate n a, s) := by
  induction n with
  | zero => rfl
  | succ n ih =>
    rw [repeatGen, bind_eq_of_ok (hg s), bind_eq_of_ok ih]
    rfl

end

section

variable {α β : Type} {g : α → Gen β}

theorem mapGen_append (as as' : List α) :
    mapGen g (as ++ as') = (mapGen g as >>= fun bs => mapGen g as' >>= fun bs' => pure (bs ++ bs')) := by
  induction as with
  | nil => simp [mapGen]
  | cons a as ih => simp [mapGen, ih]

theorem mapGen_map {γ : Type} (f : γ → α) (as : List γ) : mapGen g (as.map f) = mapGen (fun a => g (f a)) as := by
  induction as with
  | nil => rfl
  | cons a as ih => rw [List.map_cons, mapGen, mapGen, ih]

/-- To run one program for each element is to repeat it. -/
theorem mapGen_const (g : Gen β) (as : List α) : mapGen (fun _ => g) as = repeatGen g as.length := by
  induction as with
  | nil => rfl
  | cons a as ih => rw [mapGen, ih, List.length_cons, repeatGen]

theorem length_mapGen {as : List α} {bs : List β} {s s' : Source} (h : mapGen g as s = .ok (bs, s')) : bs.length = as.length := by
  induction as generalizing bs s s' with
  | nil =>
    obtain ⟨rfl, -⟩ := pure_ok.mp h
    rfl
  | cons a as ih =>
    obtain ⟨b, t, -, h⟩ := bind_ok.mp h
    obtain ⟨bs', t', hbs, h⟩ := bind_ok.mp h
    obtain ⟨rfl, -⟩ := pure_ok.mp h
    rw [List.length_cons, List.length_cons, ih hbs]

end

theorem bind_eq_of_error {α β : Type} {g : Gen α} {f : α → Gen β} {s : Source} {e : Stop} (h : g s = .error e) :
    (g >>= f) s = .error e := by
  simp [bind, StateT.bind, Except.bind, h]

theorem length_nextWords {n : Nat} {ws : List Nat} {s s' : Source} (h : nextWords n s = .ok (ws, s')) : ws.length = n := by
  cases s with
  | none => simp [nextWords] at h
  | some vs =>
    simp only [nextWords] at h
    split at h
    · simp only [Except.ok.injEq, Prod.mk.injEq] at h
      rw [← h.1, List.length_take]
      omega
    · simp at h

/-! ## Infinite streams -/

/-- `n` words of a stream from position `i` on. -/
def window (ω : Nat → Nat) (i n : Nat) : List Nat := (List.range n).map fun k => ω (i + k)

theorem window_add (ω : Nat → Nat) (i m n : Nat) : window ω i (m + n) = window ω i m ++ window ω (i + m) n := by
  simp [window, List.range_add, Nat.add_assoc]

@[simp] theorem length_window (ω : Nat → Nat) (i n : Nat) : (window ω i n).length = n := by
  simp [window]

/-- Started at position `i` of a stream, the program returns `a` and has read `m` words. -/
def Delivers {α : Type} (g : Gen α) (ω : Nat → Nat) (i : Nat) (a : α) (m : Nat) : Prop :=
  ∀ n, g (some (window ω i (m + n))) = .ok (a, some (window ω (i + m) n))

/-- Started at position `i` of a stream, the program returns. -/
def Finishes {α : Type} (g : Gen α) (ω : Nat → Nat) (i : Nat) : Prop := ∃ a m, Delivers g ω i a m

section

variable {α β : Type} {g : Gen α} {f : α → Gen β} {ω : Nat → Nat}

theorem finishes_of_eq {a : α} (h : ∀ s, g s = .ok (a, s)) (i : Nat) : Finishes g ω i := by
  refine ⟨a, 0, fun n => ?_⟩
  simpa using h (some (window ω i n))

theorem finishes_pure (a : α) (i : Nat) : Finishes (pure a : Gen α) ω i :=
  finishes_of_eq (fun _ => rfl) i

/-- The rule for sequences on a stream. -/
theorem Finishes.bind {i : Nat} (hg : Finishes g ω i) (hf : ∀ a j, Finishes (f a) ω j) : Finishes (g >>= f) ω i := by
  obtain ⟨a, m, h1⟩ := hg
  obtain ⟨b, m', h2⟩ := hf a (i + m)
  refine ⟨b, m + m', fun n => ?_⟩
  rw [Nat.add_assoc, bind_eq_of_ok (h1 (m' + n)), h2 n, Nat.add_assoc]

theorem Finishes.map {i : Nat} (h : α → β) (hg : Finishes g ω i) : Finishes (h <$> g) ω i := by
  rw [map_eq_pure_bind]
  exact hg.bind fun a j => finishes_pure (h a) j

theorem finishes_repeatGen (hg : ∀ i, Finishes g ω i) (n : Nat) : ∀ i, Finishes (repeatGen g n) ω i := by
  induction n with
  | zero => exact fun i => finishes_pure [] i
  | succ n ih => exact fun i => (hg i).bind fun a j => (ih j).bind fun as k => finishes_pure (a :: as) k

end

theorem finishes_nextWord (ω : Nat → Nat) (i : Nat) : Finishes nextWord ω i := by
  refine ⟨ω i, 1, fun n => ?_⟩
  rw [window_add]
  simp [window, nextWord]

theorem finishes_nextWords (ω : Nat → Nat) (n i : Nat) : Finishes (nextWords n) ω i := by
  refine ⟨window ω i n, n, fun k => ?_⟩
  rw [window_add]
  simp [nextWords]

end Words
