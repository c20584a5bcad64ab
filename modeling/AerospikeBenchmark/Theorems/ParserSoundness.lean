import AerospikeBenchmark.Lemmas.ParseRun
import AerospikeBenchmark.Lemmas.WrittenTokens

/-!
# Which accepted texts are documented

The parser takes more than the documented format: a comma before a bracket or the end, white space and signs in front of a number,
hexadecimal doubles, and white space or a sign in a hexadecimal escape. On a tidy text it can do none of that, so what it reads
is the documented text of the tree it builds; and every documented text is tidy.
-/

namespace AerospikeBenchmark

open CText SpecTree

/-! ## Trees -/

/-- From a tidy text, the tree is read from a documented text of it. -/
def ReadsWritten (t : SpecTree) : Prop :=
  ∀ (role : Role) (delim : Char) (s s' : Text), Reads role delim t s s' → Tidy s → role.isKey = false → Stops delim →
    peek (skipBlank s') = ',' ∨ peek (skipBlank s') = delim → ∃ a, s = a ++ s' ∧ Written t a

/-- A tree that is read leaves a text that is scanned on. -/
theorem ReadsWritten.next {t : SpecTree} (ht : ReadsWritten t) {role : Role} {delim : Char} {s s' : Text}
    (h : Reads role delim t s s') (hs : Tidy s) (hkey : role.isKey = false) (hd : Stops delim)
    (hend : peek (skipBlank s') = ',' ∨ peek (skipBlank s') = delim) :
    ∃ a, s = a ++ s' ∧ Written t a ∧ TidyFrom .outside s' := by
  obtain ⟨a, rfl, ha⟩ := ht role delim s s' h hs hkey hd hend
  have hstops : Stops (peek (skipBlank s')) := by
    rcases hend with h | h <;> rw [h]
    · decide
    · exact hd
  exact ⟨a, rfl, ha, (treePassedOver t a s' ha (wf_of_reads t _ _ _ _ h).1 hstops).tidy.mp hs.plain⟩

/-- The elements are read from a documented text of them; a comma that nothing follows is not tidy. -/
theorem readsElems_written {ts : List SpecTree} (ih : ∀ t ∈ ts, ReadsWritten t) :
    ∀ {delim : Char} {s s' : Text}, ReadsElems delim ts s s' → Tidy s → delim = ']' ∨ delim = '\x00' →
      ∃ body, s = body ++ s' ∧ WrittenElems ts body := by
  induction ts with
  | nil =>
    rintro delim s s' ⟨-, rfl⟩ - -
    exact ⟨[], rfl, rfl⟩
  | cons t ts ihts =>
    rintro delim s s' ⟨-, s₁, s₂, ht, hsep, hts⟩ hs hdelim
    have hd : Stops delim := by rcases hdelim with rfl | rfl <;> decide
    have hnext := (ih t List.mem_cons_self).next ht hs rfl hd
    rcases hsep with ⟨hcomma, rfl⟩ | ⟨-, rfl, hend⟩
    · obtain ⟨a, rfl, ha, htidy⟩ := hnext (Or.inl (by rw [skipBlank_of_ne (by rw [hcomma]; decide)]; exact hcomma))
      have hplain := (htidy.tail hcomma (by decide) (by decide)).1.comma rfl
      obtain ⟨g, hg, hgap⟩ := exists_gap s₁.tail
      obtain ⟨c, hc, hwritten⟩ := ihts (fun t' h' => ih t' (List.mem_cons_of_mem _ h')) hts (Tidy.next htidy hcomma (by decide)) hdelim
      have hne : ts ≠ [] := by
        rintro rfl
        rcases hdelim with rfl | rfl
        · exact hplain.1 hts.1
        · exact hplain.2 hts.1
      refine ⟨a ++ ',' :: (g ++ c), ?_, a, _, ha, rfl, Or.inr ⟨hne, g, c, hg, hwritten, rfl⟩⟩
      calc a ++ s₁ = a ++ ',' :: s₁.tail := by rw [← eq_cons_of_peek hcomma (by decide)]
        _ = a ++ ',' :: (g ++ (c ++ s')) := by rw [← hc, ← hgap]
        _ = a ++ ',' :: (g ++ c) ++ s' := by simp
    · obtain ⟨a, rfl, ha, -⟩ := hnext (Or.inr hend)
      obtain ⟨g, hg, hgap⟩ := exists_gap s₁
      cases ts with
      | nil =>
        obtain ⟨-, rfl⟩ := hts
        exact ⟨a ++ g, by rw [List.append_assoc, ← hgap], a, g, ha, rfl, Or.inl ⟨rfl, hg⟩⟩
      | cons t' ts' => exact absurd hend hts.1

/-- The pairs are read from a documented text of them. -/
theorem readsPairs_written {kvs : List (Leaf × SpecTree)} (ih : ∀ p ∈ kvs, ReadsWritten p.2) :
    ∀ {seen : List Leaf} {s s' : Text}, ReadsPairs seen kvs s s' → Tidy s → ∃ body, s = body ++ s' ∧ WrittenPairs kvs body := by
  induction kvs with
  | nil =>
    rintro seen s s' ⟨-, -, rfl⟩ -
    exact ⟨[], rfl, rfl⟩
  | cons p kvs ihkvs =>
    obtain ⟨k, v⟩ := p
    rintro seen s s' ⟨-, s₁, s₂, hkey, hcolon, -, hval, hrest⟩ hs
    obtain ⟨a, rfl, ha⟩ := readLeaf_written hkey hs (by decide) (by simpa [EndsType, Role.isKey] using hcolon)
    have hsmall := (passedOver_leaf ha (leafOk_of_readElement hkey).inRange (hcolon ▸ by decide)).tidy.mp hs.plain
    -- from the key over the colon to the value
    obtain ⟨g, hg, hgap⟩ := exists_gap s₁
    obtain ⟨g', hg', hgap'⟩ := exists_gap (skipBlank s₁).tail
    have hgq : '"' ∉ g := by rcases hg with rfl | rfl <;> decide
    have hvtidy : Tidy (skipBlank (skipBlank s₁).tail) := Tidy.next (tidy_drop hgq (hgap ▸ hsmall)) hcolon (by decide)
    have hend : peek (skipBlank s₂) = ',' ∨ peek (skipBlank s₂) = '\x7d' := by
      rcases hrest with ⟨-, h, -⟩ | ⟨h, -⟩
      · exact Or.inr h
      · exact Or.inl h
    obtain ⟨b, hb, hwritten, htidy⟩ := (ih (k, v) List.mem_cons_self).next hval hvtidy rfl (by decide) hend
    obtain ⟨g'', hg'', hgap''⟩ := exists_gap s₂
    have htext : a ++ s₁ = a ++ (g ++ ':' :: (g' ++ (b ++ (g'' ++ skipBlank s₂)))) := by
      rw [← hgap'', ← hb, ← hgap', ← eq_cons_of_peek hcolon (by decide), ← hgap]
    -- the brace, or a comma and the other pairs
    rcases hrest with ⟨rfl, -, rfl⟩ | ⟨hcomma, hkvs⟩
    · exact ⟨a ++ (g ++ ':' :: (g' ++ (b ++ (g'' ++ [])))), by rw [htext]; simp,
        a, g, g', b, g'', [], ha, hg, hg', hwritten, hg'', rfl, Or.inl ⟨rfl, rfl⟩⟩
    · have hgq'' : '"' ∉ g'' := by rcases hg'' with rfl | rfl <;> decide
      have hnext : Tidy (skipBlank (skipBlank s₂).tail) := Tidy.next (tidy_drop hgq'' (hgap'' ▸ htidy)) hcomma (by decide)
      obtain ⟨d, hd, hpairs⟩ := ihkvs (fun p hp => ih p (List.mem_cons_of_mem _ hp)) hkvs hnext
      obtain ⟨h, hh, hgaph⟩ := exists_gap (skipBlank s₂).tail
      have hne : kvs ≠ [] := by
        rintro rfl
        simp [ReadsPairs] at hkvs
      have hlast : skipBlank s₂ = ',' :: (h ++ (d ++ s')) := by
        rw [← hd, ← hgaph]
        exact eq_cons_of_peek hcomma (by decide)
      exact ⟨a ++ (g ++ ':' :: (g' ++ (b ++ (g'' ++ ',' :: (h ++ d))))), by rw [htext, hlast]; simp,
        a, g, g', b, g'', _, ha, hg, hg', hwritten, hg'', rfl, Or.inr ⟨hne, h, d, hh, hpairs, rfl⟩⟩

/-- The text of a collection, from its multiplier to its closing bracket. -/
theorem collection_text {l e : Char} {m b g body s₂ : Text} (hl : b = l :: b.tail) (hgap : b.tail = g ++ skipBlank b.tail)
    (hbody : skipBlank b.tail = body ++ s₂) (he : s₂ = e :: s₂.tail) :
    m ++ b = m ++ l :: (g ++ (body ++ [e])) ++ s₂.tail := by
  calc m ++ b = m ++ l :: (g ++ (body ++ s₂)) := by rw [← hbody, ← hgap, ← hl]
    _ = m ++ l :: (g ++ (body ++ e :: s₂.tail)) := by rw [← he]
    _ = m ++ l :: (g ++ (body ++ [e])) ++ s₂.tail := by simp

/-- What is read from a tidy text is documented, by induction on the tree. -/
theorem readsWritten (t : SpecTree) : ReadsWritten t := by
  induction t using SpecTree.induct with
  | leaf l =>
    intro role delim s s' h hs hkey hd hend
    exact readLeaf_written h hs hd (by simpa [EndsType, hkey] using hend)
  | list n es ih =>
    rintro role delim s s' ⟨s₁, s₂, h, hes, -, rfl⟩ hs hkey hd hend
    obtain ⟨m, b, rfl, hm, htidy, hopen, rfl⟩ := readElement_written h hs hd (by simp)
    obtain ⟨body, hbody, hwritten⟩ := readsElems_written ih hes (Tidy.next htidy.plain hopen (by decide)) (Or.inl rfl)
    obtain ⟨g, hg, hgap⟩ := exists_gap b.tail
    exact ⟨_, collection_text (eq_cons_of_peek hopen (by decide)) hgap hbody (eq_cons_of_peek hes.peek_end (by decide)),
      m, g, body, hm, hg, hwritten, rfl⟩
  | map n kvs ih =>
    rintro role delim s s' ⟨s₁, s₂, h, hkvs, -, rfl⟩ hs hkey hd hend
    obtain ⟨m, b, rfl, hm, htidy, hopen, rfl⟩ := readElement_written h hs hd (by simp)
    obtain ⟨body, hbody, hwritten⟩ := readsPairs_written ih hkvs (Tidy.next htidy.plain hopen (by decide))
    obtain ⟨g, hg, hgap⟩ := exists_gap b.tail
    exact ⟨_, collection_text (eq_cons_of_peek hopen (by decide)) hgap hbody (eq_cons_of_peek hkvs.peek_end (by decide)),
      m, g, body, hm, hg, hwritten, rfl⟩

/-! ## Accepted texts -/

/-- The parser's language against the documented one: a text that is accepted is documented exactly when it is tidy, and a tidy
one is a documented text of the trees whose bin specs are stored. -/
theorem accepted_documented_iff (R : AsRandom) (text : Text) (hnul : '\x00' ∉ text) (o : ObjSpec)
    (haccepted : objSpecParse R text = .ok o) :
    (Documented text ↔ Tidy text) ∧
      (Tidy text → ∃ ts, WFList ts ∧ WrittenElems ts text ∧ o = ⟨ts.map build, total ts⟩) := by
  obtain ⟨ts, s', hreads, -, rfl⟩ := objSpecParse_ok_iff.mp haccepted
  have hwritten : Tidy text → WFList ts ∧ WrittenElems ts text := by
    intro htidy
    obtain ⟨body, htext, hbody⟩ := readsElems_written (fun t _ => readsWritten t) hreads htidy (Or.inr rfl)
    have hend : s' = [] := by
      refine eq_nil_of_peek (fun hmem => hnul ?_) hreads.peek_end
      rw [htext]
      exact List.mem_append_right body hmem
    rw [hend, List.append_nil] at htext
    exact ⟨hreads.wfList, htext ▸ hbody⟩
  refine ⟨⟨?_, fun htidy => ⟨ts, hwritten htidy⟩⟩, fun htidy => ⟨ts, (hwritten htidy).1, (hwritten htidy).2, rfl⟩⟩
  rintro ⟨ts', hwf, htext⟩
  exact tidy_of_written htext hwf

/-- Constants of every kind. -/
theorem accepted_documented_mixed : Documented "2*[T, 0xf ], 1.5e+3f, \"\\x41+\"".toList :=
  (accepted_documented_iff .littleEndian _ (by decide)
    ⟨[.constList 2 [.bool true, .int 15], .scalar 1 (.constDouble 0x4097700000000000), .scalar 1 (.constStr ['A', '+'])], 4⟩
    (by decide +kernel)).1.mpr (by decide +kernel)

/-- A text that the parser takes and the format does not have. -/
def UndocumentedAccepted (text : String) : Prop := (objSpecParse .littleEndian text.toList).isOk = true ∧ ¬ Documented text.toList

theorem undocumentedAccepted_of_not_tidy {text : String} (h : (objSpecParse .littleEndian text.toList).isOk = true)
    (htidy : ¬ Tidy text.toList) : UndocumentedAccepted text := by
  refine ⟨h, ?_⟩
  rintro ⟨ts, hwf, hwritten⟩
  exact htidy (tidy_of_written hwritten hwf)

/-- A comma that nothing follows, a number behind a blank or a sign, a plus in front of an integer, a hexadecimal double and a
hexadecimal escape with a blank. -/
theorem undocumented_accepted :
    UndocumentedAccepted "I," ∧ UndocumentedAccepted "[I,]" ∧ UndocumentedAccepted "S 5" ∧
      UndocumentedAccepted "S-18446744073709551615" ∧ UndocumentedAccepted "+1" ∧ UndocumentedAccepted "0x1.8" ∧
      UndocumentedAccepted "\"\\x 1\"" := by
  refine ⟨?_, ?_, ?_, ?_, ?_, ?_, ?_⟩ <;> exact undocumentedAccepted_of_not_tidy (by decide +kernel) (by decide +kernel)

end AerospikeBenchmark
