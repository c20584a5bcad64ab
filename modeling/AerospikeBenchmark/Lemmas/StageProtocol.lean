import AerospikeBenchmark.Coordinator.Model
import Mathlib.Tactic.DeriveFintype

/-!
# The invariant of the stage protocol

Every step of a process is, for the others, one of five moves: nothing, a completion, an arrival at the barrier, a return from it,
or the coordinator's reset of the counter. The barrier keeps the processes in the same half of the same stage, from which follows
what a process reads in the shared fields; the counter follows the completions.
-/

namespace AerospikeBenchmark

/-- The parties of the barrier and of the counter. -/
inductive Party (T : Nat) where
  | worker (w : Fin T)
  | output
  | coord
deriving DecidableEq, Fintype

theorem card_party (T : Nat) : Fintype.card (Party T) = T + 1 + 1 := by
  have e : Party T ≃ Option (Option (Fin T)) :=
    { toFun := fun
        | .worker w => some (some w)
        | .output => some none
        | .coord => none
      invFun := fun
        | some (some w) => .worker w
        | some none => .output
        | none => .coord
      left_inv := by rintro (_ | _ | _) <;> rfl
      right_inv := by rintro (_ | _ | _) <;> rfl }
  rw [Fintype.card_congr e, Fintype.card_option, Fintype.card_option, Fintype.card_fin]

/-! ## What the others see of a process -/

/-- What the barrier and the counter depend on: the round a process waits for, the rounds it has passed, its completions. -/
structure View where
  wait : Option Nat
  passed : Nat
  completions : Nat

/-- The round a worker waits for. -/
def WorkerPc.wait : WorkerPc → Option Nat
  | .wait1 r | .wait2 r => some r
  | _ => none

/-- The rounds a worker has passed in this iteration of its loop. -/
def WorkerPc.half : WorkerPc → Nat
  | .arrive2 | .wait2 _ => 1
  | _ => 0

/-- The round the output worker waits for. -/
def OutputPc.wait : OutputPc → Option Nat
  | .wait1 r | .wait2 r => some r
  | _ => none

/-- The rounds the output worker has passed in this iteration of its loop. -/
def OutputPc.half : OutputPc → Nat
  | .arrive2 | .wait2 _ => 1
  | _ => 0

/-- The round the coordinator waits for. -/
def CoordPc.wait : CoordPc → Option Nat
  | .wait1 r | .wait2 r | .waitEnd r => some r
  | _ => none

/-- The rounds the coordinator has passed in this iteration of its loop. -/
def CoordPc.half : CoordPc → Nat
  | .sleep | .finish | .waiting | .halt _ | .arrive1 | .wait1 _ => 0
  | .exit => 2
  | _ => 1

/-- What the others see of a worker. -/
def Worker.view (x : Worker) : View := ⟨x.pc.wait, 2 * x.iter + x.pc.half, x.completions⟩

/-- What the others see of the output worker. -/
def Output.view (x : Output) : View := ⟨x.pc.wait, 2 * x.iter + x.pc.half, x.completions⟩

/-- What the others see of the coordinator. -/
def Coord.view (x : Coord) : View := ⟨x.pc.wait, 2 * x.iter + x.pc.half, x.completions⟩

/-- What is seen of each party. -/
def ProtocolState.view {T : Nat} (s : ProtocolState T) : Party T → View
  | .worker w => (s.worker w).view
  | .output => s.output.view
  | .coord => s.coord.view

/-- What a step does to the barrier, the counter and the view of the process, the reset of the counter apart. A process completes
its stage in the first half of the stage, before the last stage is over. -/
inductive Move (n : Nat) (b : Barrier) (u : Int) (v : View) : Barrier → Int → View → Prop where
  | quiet : Move n b u v b u v
  | complete : v.wait = none → v.passed = 2 * v.completions → v.completions < n →
      Move n b u v b (u - 1) { v with completions := v.completions + 1 }
  | arrive : v.wait = none → Move n b u v b.arrive u { v with wait := some b.round }
  | leave (r : Nat) : v.wait = some r → b.round ≠ r → Move n b u v b u { v with wait := none, passed := v.passed + 1 }

theorem Move.stay {n : Nat} {b : Barrier} {u : Int} {v v' : View} (h : v' = v) : Move n b u v b u v' := h ▸ Move.quiet

/-! ## The barrier and the counter -/

section

variable {T : Nat}

/-- The barrier agrees with the views, and the counter is the number of parties that have not completed stage `k`. -/
structure Agree (b : Barrier) (u : Int) (view : Party T → View) (k : Nat) : Prop where
  synced : b.Synced (fun p => (view p).wait) (fun p => (view p).passed)
  counted : u = (Finset.univ.filter fun p => (view p).completions ≤ k).card

theorem update_view (view : Party T → View) (p : Party T) (v : View) {α : Type} (f : View → α) :
    (fun q => f (Function.update view p v q)) = Function.update (fun q => f (view q)) p (f v) := by
  funext q
  exact Function.apply_update (fun _ => f) view p v q

/-- One party fewer has to complete the stage when one of those that had not completes it. -/
theorem card_completed {view : Party T → View} {p : Party T} {v : View} {k : Nat} (hp : (view p).completions = k)
    (hv : v.completions = k + 1) :
    ((Finset.univ.filter fun q => (view q).completions ≤ k).card : Int) - 1 =
      (Finset.univ.filter fun q => (Function.update view p v q).completions ≤ k).card := by
  have hmem : p ∈ Finset.univ.filter fun q => (view q).completions ≤ k := by simp [hp]
  have herase : (Finset.univ.filter fun q => (Function.update view p v q).completions ≤ k) =
      (Finset.univ.filter fun q => (view q).completions ≤ k).erase p := by
    ext q
    by_cases hq : q = p
    · simp [hq, hv]
    · simp [hq]
  have hpos := Finset.card_pos.mpr ⟨p, hmem⟩
  rw [herase, Finset.card_erase_of_mem hmem]
  omega

/-- A move keeps barrier and counter in agreement with the views, when a process can complete no other stage than `k`. -/
theorem Agree.move {n : Nat} {b b' : Barrier} {u u' : Int} {view : Party T → View} {k : Nat} {p : Party T} {v' : View}
    (h : Agree b u view k) (hk : ∀ j, j < n → b.round = 2 * j → j = k) (hm : Move n b u (view p) b' u' v') :
    Agree b' u' (Function.update view p v') k := by
  have hcount : ∀ v, v.completions = (view p).completions →
      u = (Finset.univ.filter fun q => (Function.update view p v q).completions ≤ k).card := by
    intro v hv
    rw [h.counted]
    congr 2
    ext q
    by_cases hq : q = p
    · simp [hq, hv]
    · simp [hq]
  have hkeep : ∀ v, v.wait = (view p).wait → v.passed = (view p).passed →
      b.Synced (fun q => (Function.update view p v q).wait) (fun q => (Function.update view p v q).passed) := by
    intro v hw hp
    rw [update_view view p v View.wait, update_view view p v View.passed, hw, hp, Function.update_eq_self,
      Function.update_eq_self]
    exact h.synced
  cases hm with
  | quiet => exact ⟨hkeep _ rfl rfl, hcount _ rfl⟩
  | complete hw hp hlt =>
    have hround := h.synced.free p hw
    have hcur : (view p).completions = k := hk _ hlt (by rw [← hround]; exact hp)
    exact ⟨hkeep _ rfl rfl, by rw [h.counted]; exact card_completed hcur (by simp [hcur])⟩
  | arrive hw =>
    refine ⟨?_, hcount _ rfl⟩
    have hsync := h.synced.arrive hw
    rw [update_view view p _ View.wait, update_view view p _ View.passed, Function.update_eq_self p (fun q => (view q).passed)]
    exact hsync
  | leave r hw hr =>
    refine ⟨?_, hcount _ rfl⟩
    have hsync := h.synced.leave hw hr
    rw [update_view view p _ View.wait, update_view view p _ View.passed]
    exact hsync

/-- Once all parties have completed stage `k` the counter stays at zero. -/
theorem Agree.move_zero {n : Nat} {b b' : Barrier} {u' : Int} {view : Party T → View} {k : Nat} {p : Party T} {v' : View}
    (h : Agree b 0 view k) (hk : ∀ j, j < n → b.round = 2 * j → j = k) (hm : Move n b 0 (view p) b' u' v') : u' = 0 := by
  cases hm with
  | quiet => rfl
  | complete hw hp hlt =>
    have hround := h.synced.free p hw
    have hcur : (view p).completions = k := hk _ hlt (by rw [← hround]; exact hp)
    have hempty := Finset.card_eq_zero.mp (Int.ofNat_eq_zero.mp h.counted.symm)
    have hmem : p ∈ Finset.univ.filter fun q => (view q).completions ≤ k := by simp [hcur]
    rw [hempty] at hmem
    exact absurd hmem (Finset.notMem_empty p)
  | arrive hw => rfl
  | leave r hw hr => rfl

end

section

variable {T : Nat} (s : ProtocolState T) (m : Shared T)

theorem view_worker (w : Fin T) (x : Worker) :
    ({ s with shared := m, worker := Function.update s.worker w x } : ProtocolState T).view =
      Function.update s.view (.worker w) x.view := by
  funext p
  cases p with
  | worker v =>
    by_cases hv : v = w
    · subst hv
      simp [ProtocolState.view]
    · simp [ProtocolState.view, hv]
  | output => rfl
  | coord => rfl

theorem view_output (x : Output) :
    ({ s with shared := m, output := x } : ProtocolState T).view = Function.update s.view .output x.view := by
  funext p
  cases p <;> rfl

theorem view_coord (x : Coord) :
    ({ s with shared := m, coord := x } : ProtocolState T).view = Function.update s.view .coord x.view := by
  funext p
  cases p <;> rfl

end

end AerospikeBenchmark
