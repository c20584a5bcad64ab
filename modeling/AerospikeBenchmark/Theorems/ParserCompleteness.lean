import AerospikeBenchmark.Lemmas.ParseRun
import AerospikeBenchmark.ObjectSpec.Render

/-!
# The parser accepts every text of a constant-free spec

A rendering of a tree is read as that tree, whatever follows it as long as that can follow a bin type; with the
characterisation of the accepted texts, the parser returns the spec of the tree.
-/

namespace AerospikeBenchmark

open CText SpecTree

/-- The characters that can follow a bin type. -/
def Follows (c : Char) : Prop := c = ' ' ∨ c = ',' ∨ c = ':' ∨ c = ']' ∨ c = '\x7d' ∨ c = '\x00'

/-- The characters a bin type can start with, after its multiplier. -/
def Starts (c : Char) : Prop := c = 'b' ∨ c = 'I' ∨ c = 'S' ∨ c = 'B' ∨ c = 'D' ∨ c = '[' ∨ c = '\x7b'

theorem Follows.not_digit {c : Char} (h : Follows c) : isDigit 10 c = false := by
  rcases h with rfl | rfl | rfl | rfl | rfl | rfl <;> decide

theorem Starts.not_digit {c : Char} (h : Starts c) : isDigit 10 c = false := by
  rcases h with rfl | rfl | rfl | rfl | rfl | rfl | rfl <;> decide

theorem Starts.not_follows {c : Char} (h : Starts c) : ¬ Follows c := by
  rcases h with rfl | rfl | rfl | rfl | rfl | rfl | rfl <;> unfold Follows <;> decide

/-- A text that a bin type stands in front of: neither blank nor separator nor end. -/
def Opens (s : Text) : Prop := isDigit 10 (peek s) = true ∨ Starts (peek s)

theorem Opens.not_follows {s : Text} (h : Opens s) : ¬ Follows (peek s) := by
  rcases h with h | h
  · intro hf
    rw [hf.not_digit] at h
    exact Bool.noConfusion h
  · exact h.not_follows

theorem Opens.peek_ne {s : Text} (h : Opens s) {c : Char} (hc : Follows c) : peek s ≠ c :=
  fun e => h.not_follows (e ▸ hc)

/-! ## Blanks -/

theorem follows_gap {g s : Text} (hg : Gap g) (hs : Follows (peek s)) : Follows (peek (g ++ s)) := by
  rcases peek_gap (s := s) hg with h | h
  · exact Or.inl h
  · exact h ▸ hs

/-! ## Multipliers -/

theorem strtoul_starts {s : Text} (h : Starts (peek s)) : strtoul 10 s = none := by
  have hsp : isSpace (peek s) = false := by rcases h with h | h | h | h | h | h | h <;> rw [h] <;> decide
  have hsign : readSign s = (false, s) := by
    refine readSign_of_ne ?_ ?_ <;> intro hc <;> rw [hc] at h <;> exact absurd h (by unfold Starts; decide)
  simp [strtoul, readNumber, skipSpace_of_not hsp, hsign, skipHexMark_of_ne, h.not_digit]

/-- A multiplier is read as the number it denotes. -/
theorem readMultiplier_of_renders {role : Role} {n : Nat} {m b : Text} (h : RendersMult n m) (h1 : 1 ≤ n) (h2 : n < 2 ^ 32)
    (hval : role.isVal = true → n = 1) (hb : Starts (peek b)) : readMultiplier role (m ++ b) = .ok (n, b) := by
  rcases h with ⟨rfl, rfl⟩ | ⟨ds, g, g', hds, hg, hg', rfl⟩
  · simp [readMultiplier, strtoul_starts hb]
  · have hstar : peek ('*' :: g' ++ b) ≠ ' ' := by simp
    have hdigit : isDigit 10 (peek (g ++ ('*' :: g' ++ b))) = false := by
      rcases peek_gap (s := '*' :: g' ++ b) hg with h | h <;> rw [h] <;> rfl
    have hscan := strtoul_numeral (by omega) (by omega) hds.isNumeral hdigit (by rw [hds.value]; omega)
    have hblank : peek b ≠ ' ' := by
      intro hc
      exact hb.not_follows (Or.inl hc)
    have hskip : skipBlank (skipBlank (g ++ ('*' :: g' ++ b))).tail = b := by
      rw [skipBlank_gap hg hstar]
      exact skipBlank_gap hg' hblank
    have hpeek : peek (skipBlank (g ++ ('*' :: g' ++ b))) = '*' := by
      rw [skipBlank_gap hg hstar]
      rfl
    have htext : ds ++ (g ++ '*' :: g') ++ b = ds ++ (g ++ ('*' :: g' ++ b)) := by simp
    rw [htext, readMultiplier, hscan]
    simp only [hds.value, hpeek, hskip, peek_numeral hds.isNumeral, Bool.false_eq_true, Bool.true_eq_false, or_self, if_false,
      if_true]
    rw [if_neg (fun h => h.2 (hval h.1)), if_neg (by omega), if_neg (by omega)]

/-! ## Scalars -/

/-- The number after an `S` or a `B`. -/
theorem readLength_of_renders {missing invalid : String} {make : Nat → Scalar} {n : Nat} {ds r : Text} (h : Numeral n ds)
    (hn : n < 2 ^ 32) (hr : Follows (peek r)) : readLength missing invalid make (ds ++ r) = .ok (.scalar (make n), r) := by
  have hscan := strtoul_numeral (by omega) (by omega) h.isNumeral hr.not_digit (by rw [h.value]; omega)
  simp only [readLength, hscan, h.value]
  rw [if_neg (by omega)]

/-- The character after an `I`, for each range. -/
theorem range_char {r : Nat} (h : r ≤ 7) :
    '1' ≤ Char.ofNat (r + 49) ∧ Char.ofNat (r + 49) ≤ '8' ∧ (Char.ofNat (r + 49)).toNat - 49 = r := by
  have hall : ∀ r : Fin 8, '1' ≤ Char.ofNat (r + 49) ∧ Char.ofNat (r + 49) ≤ '8' ∧ (Char.ofNat (r + 49)).toNat - 49 = r := by
    decide
  exact hall ⟨r, by omega⟩

theorem Follows.not_range {c : Char} (h : Follows c) : ¬ ('1' ≤ c ∧ c ≤ '8') := by
  rcases h with rfl | rfl | rfl | rfl | rfl | rfl <;> decide

/-- A scalar type is read as itself, before anything that can follow it. -/
theorem readToken_of_renders {role : Role} {delim : Char} {mult : Nat} {c : Scalar} {b r : Text} (h : RendersScalar c b)
    (hin : c.InRange) (hkey : role.isKey = true → c.isKeyType = true) (hr : Follows (peek r)) :
    readToken role delim mult (b ++ r) = .ok (.scalar c, r) := by
  have hnokey : c.isKeyType = false → role.isKey = false := by
    intro hc
    by_contra hk
    rw [hkey (by simpa using hk)] at hc
    exact Bool.noConfusion hc
  cases c with
  | bool =>
    obtain rfl : b = ['b'] := h
    simp [readToken, unlessKey, hnokey rfl]
  | int k =>
    rcases h with rfl | ⟨rfl, rfl⟩
    · obtain ⟨h1, h2, h3⟩ := range_char hin
      simp [readToken, h1, h2, h3]
    · simp [readToken, hr.not_range]
  | str n =>
    obtain ⟨ds, hds, rfl⟩ := h
    simp [readToken, readLength_of_renders hds hin hr]
  | bytes n =>
    obtain ⟨ds, hds, rfl⟩ := h
    simp [readToken, readLength_of_renders hds hin hr]
  | double =>
    obtain rfl : b = ['D'] := h
    simp [readToken, unlessKey, hnokey rfl]
  | constBool | constInt | constStr | constDouble => exact absurd h (by simp [RendersScalar])

theorem starts_scalar {c : Scalar} {b : Text} (h : RendersScalar c b) (r : Text) : Starts (peek (b ++ r)) := by
  cases c with
  | bool => obtain rfl : b = ['b'] := h; simp [Starts]
  | int k => rcases h with rfl | ⟨-, rfl⟩ <;> simp [Starts]
  | str n => obtain ⟨ds, -, rfl⟩ := h; simp [Starts]
  | bytes n => obtain ⟨ds, -, rfl⟩ := h; simp [Starts]
  | double => obtain rfl : b = ['D'] := h; simp [Starts]
  | constBool | constInt | constStr | constDouble => exact absurd h (by simp [RendersScalar])

/-! ## Elements -/

theorem opens_mult {n : Nat} {m b : Text} (hm : RendersMult n m) (hb : Starts (peek b)) : Opens (m ++ b) := by
  rcases hm with ⟨-, rfl⟩ | ⟨ds, g, g', hds, -, -, rfl⟩
  · exact Or.inr hb
  · rw [List.append_assoc]
    exact Or.inl (peek_numeral hds.isNumeral _)

theorem opens_leaf {l : Leaf} {a : Text} (h : RendersLeaf l a) (r : Text) : Opens (a ++ r) := by
  obtain ⟨m, b, hm, hb, rfl⟩ := h
  rw [List.append_assoc]
  exact opens_mult hm (starts_scalar hb r)

theorem opens_tree {t : SpecTree} {a : Text} (h : Renders t a) (r : Text) : Opens (a ++ r) := by
  cases t with
  | leaf l => exact opens_leaf h r
  | list n es =>
    obtain ⟨m, g, body, hm, -, -, rfl⟩ := h
    rw [List.append_assoc]
    exact opens_mult hm (by simp [Starts])
  | map n kvs =>
    obtain ⟨m, g, body, hm, -, -, rfl⟩ := h
    rw [List.append_assoc]
    exact opens_mult hm (by simp [Starts])

/-- A scalar with its multiplier is read as itself. -/
theorem readElement_of_renders {role : Role} {delim : Char} {l : Leaf} {a r : Text} (h : RendersLeaf l a) (hl : LeafOk l)
    (hkey : role.isKey = true → l.type.isKeyType = true) (hval : role.isVal = true → l.mult = 1) (hr : Follows (peek r)) :
    readElement role delim (a ++ r) = .ok (l.mult, .scalar l.type, r) := by
  obtain ⟨m, b, hm, hb, rfl⟩ := h
  rw [List.append_assoc]
  exact readElement_eq (readMultiplier_of_renders hm hl.pos hl.lt hval (starts_scalar hb r))
    (readToken_of_renders hb hl.inRange hkey hr)

/-- The tree is read from every rendering of it, as an element or as a map value. -/
def ReadsRendered (t : SpecTree) : Prop :=
  ∀ (role : Role) (delim : Char) (a r : Text), Renders t a → t.WF → role.isKey = false → (role.isVal = true → t.mult = 1) →
    Follows (peek r) → Reads role delim t (a ++ r) r

theorem readsElems_of_renders {ts : List SpecTree} (ih : ∀ t ∈ ts, ReadsRendered t) :
    ∀ {delim : Char} {body r : Text}, RendersElems ts body → WFList ts → (delim = ']' ∨ delim = '\x00') → peek r = delim →
      ReadsElems delim ts (body ++ r) r := by
  induction ts with
  | nil =>
    rintro delim body r rfl - - hr
    exact ⟨hr, rfl⟩
  | cons t ts ihts =>
    rintro delim body r ⟨a, b, ha, rfl, hb⟩ ⟨ht, hts⟩ hdelim hr
    have hfollows : Follows delim := by rcases hdelim with rfl | rfl <;> simp [Follows]
    have hnot : delim ≠ ',' ∧ delim ≠ ' ' := by rcases hdelim with rfl | rfl <;> decide
    rw [List.append_assoc]
    refine ⟨(opens_tree ha _).peek_ne hfollows, b ++ r, ?_⟩
    have hread : Follows (peek (b ++ r)) → Reads .elem delim t (a ++ (b ++ r)) (b ++ r) := fun hf =>
      ih t List.mem_cons_self .elem delim a (b ++ r) ha ht rfl (by simp [Role.isVal]) hf
    rcases hb with ⟨rfl, hgap⟩ | ⟨hne, g, c, hg, hc, rfl⟩
    · have hskip : skipBlank (b ++ r) = r := skipBlank_gap hgap (by rw [hr]; exact hnot.2)
      refine ⟨r, hread (follows_gap hgap (hr ▸ hfollows)), Or.inr ⟨?_, hskip.symm, hr⟩, hr, rfl⟩
      rcases peek_gap (s := r) hgap with h | h <;> rw [h]
      · decide
      · rw [hr]; exact hnot.1
    · have hopens : Opens (c ++ r) := by
        obtain ⟨t', ts', rfl⟩ := List.exists_cons_of_ne_nil hne
        obtain ⟨a', b', ha', rfl, -⟩ := hc
        rw [List.append_assoc]
        exact opens_tree ha' _
      refine ⟨c ++ r, hread (by simp [Follows]), Or.inl ⟨rfl, ?_⟩, ?_⟩
      · simp only [List.cons_append, List.tail_cons, List.append_assoc]
        exact (skipBlank_gap hg (hopens.peek_ne (Or.inl rfl))).symm
      · exact ihts (fun t' h' => ih t' (List.mem_cons_of_mem _ h')) hc hts hdelim hr

theorem readsPairs_of_renders {kvs : List (Leaf × SpecTree)} (ih : ∀ p ∈ kvs, ReadsRendered p.2) :
    ∀ {seen : List Leaf} {body r : Text}, RendersPairs kvs body → WFPairs kvs → KeysOk (kvs.map Prod.fst) →
      (kvs = [] → seen = []) → peek r = '\x7d' → ReadsPairs seen kvs (body ++ r) r := by
  induction kvs with
  | nil =>
    rintro seen body r rfl - - hseen hr
    exact ⟨hseen rfl, hr, rfl⟩
  | cons p kvs ihkvs =>
    obtain ⟨k, v⟩ := p
    rintro seen body r ⟨a, g, g', b, g'', c, ha, hg, hg', hb, hg'', rfl, hc⟩ ⟨hk, hv, hone, hwf⟩ hkeys - hr
    obtain ⟨htype, hmult, hdist⟩ := hkeys
    simp only [List.map_cons, List.mem_cons, forall_eq_or_imp, List.pairwise_cons] at htype hmult hdist
    -- what stands after the key, after the colon and after the value
    have hcr : peek (c ++ r) = '\x7d' ∨ peek (c ++ r) = ',' := by
      rcases hc with ⟨-, rfl⟩ | ⟨-, h, d, -, -, rfl⟩
      · exact Or.inl hr
      · exact Or.inr rfl
    have hcfollows : Follows (peek (c ++ r)) := by rcases hcr with h | h <;> rw [h] <;> simp [Follows]
    have hcblank : peek (c ++ r) ≠ ' ' := by rcases hcr with h | h <;> rw [h] <;> decide
    have hvopens : Opens (b ++ (g'' ++ (c ++ r))) := opens_tree hb _
    have hskip1 : skipBlank (g ++ ':' :: (g' ++ (b ++ (g'' ++ (c ++ r))))) = ':' :: (g' ++ (b ++ (g'' ++ (c ++ r)))) :=
      skipBlank_gap hg (by simp)
    have hskip2 : skipBlank (g' ++ (b ++ (g'' ++ (c ++ r)))) = b ++ (g'' ++ (c ++ r)) :=
      skipBlank_gap hg' (hvopens.peek_ne (Or.inl rfl))
    have hskip3 : skipBlank (g'' ++ (c ++ r)) = c ++ r := skipBlank_gap hg'' hcblank
    have hkfollows : Follows (peek (g ++ ':' :: (g' ++ (b ++ (g'' ++ (c ++ r)))))) := follows_gap hg (by simp [Follows])
    have htext : a ++ (g ++ ':' :: (g' ++ (b ++ (g'' ++ c)))) ++ r = a ++ (g ++ ':' :: (g' ++ (b ++ (g'' ++ (c ++ r))))) := by
      simp
    rw [htext]
    refine ⟨(opens_leaf ha _).peek_ne (by simp [Follows]), _, g'' ++ (c ++ r),
      readElement_of_renders ha hk (fun _ => htype.1) (by simp [Role.isVal]) hkfollows, ?_, ?_, ?_, ?_⟩
    · rw [hskip1]; rfl
    · rw [hskip1, List.tail_cons, hskip2]
      exact hvopens.peek_ne (by simp [Follows])
    · rw [hskip1, List.tail_cons, hskip2]
      exact ih (k, v) List.mem_cons_self .val '\x7d' b _ hb hv rfl (fun _ => hone) (follows_gap hg'' hcfollows)
    · rw [hskip3]
      rcases hc with ⟨rfl, rfl⟩ | ⟨hne, h, d, hh, hd, rfl⟩
      · exact Or.inl ⟨rfl, hr, rfl⟩
      · have hopens : Opens (d ++ r) := by
          obtain ⟨⟨k', v'⟩, kvs', rfl⟩ := List.exists_cons_of_ne_nil hne
          obtain ⟨a', _, _, _, _, _, ha', -, -, -, -, rfl, -⟩ := hd
          rw [List.append_assoc]
          exact opens_leaf ha' _
        refine Or.inr ⟨rfl, ?_⟩
        simp only [List.cons_append, List.tail_cons, List.append_assoc]
        rw [skipBlank_gap hh (hopens.peek_ne (Or.inl rfl))]
        exact ihkvs (fun p hp => ih p (List.mem_cons_of_mem _ hp)) hd hwf ⟨htype.2, hmult.2, hdist.2⟩ (fun h => absurd h hne) hr

/-- What stands after an opening bracket is not a blank. -/
theorem skipBlank_open {g body r : Text} {c : Char} (hg : Gap g) (hbody : body = [] ∨ Opens (body ++ c :: r)) (hc : c ≠ ' ') :
    skipBlank (g ++ (body ++ c :: r)) = body ++ c :: r := by
  refine skipBlank_gap hg ?_
  rcases hbody with rfl | h
  · exact hc
  · exact h.peek_ne (Or.inl rfl)

/-- Every well-formed tree is read from every rendering of it. -/
theorem reads_of_renders (t : SpecTree) : ReadsRendered t := by
  induction t using SpecTree.induct with
  | leaf l =>
    intro role delim a r ha hl hkey hval hr
    exact readElement_of_renders ha hl (by simp [hkey]) hval hr
  | list n es ih =>
    rintro role delim a r ⟨m, g, body, hm, hg, hbody, rfl⟩ ⟨h1, h2, htot, hes⟩ hkey hval hr
    have hopens : body = [] ∨ Opens (body ++ ']' :: r) := by
      cases es with
      | nil => exact Or.inl hbody
      | cons t ts =>
        obtain ⟨a, b, ha, rfl, -⟩ := hbody
        rw [List.append_assoc]
        exact Or.inr (opens_tree ha _)
    have htext : m ++ '[' :: (g ++ (body ++ [']'])) ++ r = m ++ '[' :: (g ++ (body ++ ']' :: r)) := by simp
    rw [htext]
    refine ⟨body ++ ']' :: r, ']' :: r, readElement_eq (readMultiplier_of_renders hm h1 h2 hval (by simp [Starts])) ?_,
      readsElems_of_renders ih hbody hes (Or.inl rfl) rfl, htot, rfl⟩
    simp [readToken, unlessKey, hkey, skipBlank_open hg hopens (by decide)]
  | map n kvs ih =>
    rintro role delim a r ⟨m, g, body, hm, hg, hbody, rfl⟩ ⟨h1, h2, htot, hkeys, hkvs⟩ hkey hval hr
    have hopens : body = [] ∨ Opens (body ++ '\x7d' :: r) := by
      cases kvs with
      | nil => exact Or.inl hbody
      | cons p kvs =>
        obtain ⟨a, _, _, _, _, _, ha, -, -, -, -, rfl, -⟩ := hbody
        rw [List.append_assoc]
        exact Or.inr (opens_leaf ha _)
    have htext : m ++ '\x7b' :: (g ++ (body ++ ['\x7d'])) ++ r = m ++ '\x7b' :: (g ++ (body ++ '\x7d' :: r)) := by simp
    rw [htext]
    refine ⟨body ++ '\x7d' :: r, '\x7d' :: r, readElement_eq (readMultiplier_of_renders hm h1 h2 hval (by simp [Starts])) ?_,
      readsPairs_of_renders ih hbody hkvs hkeys (fun _ => rfl) rfl, htot, rfl⟩
    simp [readToken, unlessKey, hkey, skipBlank_open hg hopens (by decide)]

/-- Parser completeness: every rendering of a constant-free spec whose lengths fit in 32 bits is accepted, and the parser builds
the bin specs of its trees and the number of bins they stand for. -/
theorem objSpecParse_renders (R : AsRandom) (ts : List SpecTree) (text : Text) (hwf : WFList ts) (htot : total ts < 2 ^ 32)
    (htext : RendersElems ts text) : objSpecParse R text = .ok ⟨ts.map build, total ts⟩ := by
  have hreads := readsElems_of_renders (fun t _ => reads_of_renders t) (r := []) htext hwf (Or.inr rfl) rfl
  rw [List.append_nil] at hreads
  exact objSpecParse_ok_iff.mpr ⟨ts, [], hreads, htot, rfl⟩

/-- A list of two, with a blank after the comma and one before the bracket. -/
theorem objSpecParse_renders_list : objSpecParse .littleEndian "2*[I, b ]".toList =
    .ok ⟨[.list 2 2 [.scalar 1 (.int 3), .scalar 1 .bool]], 2⟩ := by
  refine objSpecParse_renders .littleEndian [.list 2 [.leaf ⟨1, .int 3⟩, .leaf ⟨1, .bool⟩]] _ ?_ (by decide) ?_
  · exact ⟨⟨by decide, by decide, by decide, ⟨by decide, by decide, by simp [Scalar.InRange]⟩, ⟨by decide, by decide, trivial⟩,
      trivial⟩, trivial⟩
  · have hmult : RendersMult 2 ['2', '*'] :=
      Or.inr ⟨['2'], [], [], ⟨⟨by simp, by simp; decide⟩, by decide⟩, Or.inl rfl, Or.inl rfl, rfl⟩
    have hint : Renders (.leaf ⟨1, .int 3⟩) ['I'] := ⟨[], ['I'], Or.inl ⟨rfl, rfl⟩, Or.inr ⟨rfl, rfl⟩, rfl⟩
    have hbool : Renders (.leaf ⟨1, .bool⟩) ['b'] := ⟨[], ['b'], Or.inl ⟨rfl, rfl⟩, rfl, rfl⟩
    have hlast : RendersElems [.leaf ⟨1, .bool⟩] ['b', ' '] := ⟨['b'], [' '], hbool, rfl, Or.inl ⟨rfl, Or.inr rfl⟩⟩
    have helems : RendersElems [.leaf ⟨1, .int 3⟩, .leaf ⟨1, .bool⟩] ['I', ',', ' ', 'b', ' '] :=
      ⟨['I'], _, hint, rfl, Or.inr ⟨by simp, [' '], _, Or.inr rfl, hlast, rfl⟩⟩
    exact ⟨_, [], ⟨_, [], _, hmult, Or.inl rfl, helems, rfl⟩, rfl, Or.inl ⟨rfl, Or.inl rfl⟩⟩

end AerospikeBenchmark
