import AerospikeBenchmark.Lemmas.Literal

/-!
# Tokens of a tidy text are documented

One lemma for each reader: what it takes from a tidy text is a documented text of what it returns. The scan of `Tidy` is followed
along: behind a token it goes on, and behind a separator another bin type can start.
-/

namespace AerospikeBenchmark

open CText

/-! ## Scanning on -/

/-- The scan goes on behind a character that is no quote. -/
theorem TidyFrom.tail {c : Char} {s : Text} (h : TidyFrom .outside s) (hs : peek s = c) (h0 : c ≠ '\x00') (hq : c ≠ '"') :
    PlainAt c s.tail ∧ TidyFrom .outside s.tail := by
  rw [eq_cons_of_peek hs h0] at h
  exact (tidy_cons hq _).mp h

/-- Behind a separator, and the blank after it, a bin type can start. -/
theorem Tidy.next {c : Char} {s : Text} (h : TidyFrom .outside s) (hs : peek s = c) (hc : c ∉ ['\x00', '"', 'e', 'E']) :
    Tidy (skipBlank s.tail) := by
  simp only [List.mem_cons, List.not_mem_nil, or_false, not_or] at hc
  obtain ⟨hplain, htail⟩ := h.tail hs hc.1 hc.2.1
  have hplus : peek s.tail ≠ '+' := fun hp => by
    rcases hplain.plus hp with h | h | h <;> simp [h] at hc
  generalize s.tail = t at htail hplus
  cases t with
  | nil => exact ⟨⟨by rfl, by decide⟩, trivial⟩
  | cons d t =>
    by_cases hd : d = ' '
    · subst hd
      obtain ⟨hblank, htidy⟩ := (tidy_cons (by decide) t).mp htail
      refine ⟨⟨(hblank.blank (by decide)).2, fun hp => ?_⟩, htidy⟩
      rcases hblank.plus hp with h | h | h <;> exact absurd h (by decide)
    · have hspace : isSpace d = false := by
        by_contra hsp
        exact hd ((htail.1.blank (by simpa using hsp)).1)
      rw [skipBlank_of_ne (by simpa using hd)]
      exact ⟨⟨hspace, hplus⟩, htail⟩

/-! ## String literals -/

/-- A string literal that is read is documented. -/
theorem parseStringLiteral_written {s : Text} {p : Text × Text} (h : parseStringLiteral s = .ok p) (hs : TidyFrom .outside s) :
    ∃ body, LiteralBody body p.1 ∧ s = '"' :: (body ++ ['"']) ++ p.2 := by
  obtain ⟨body, rfl, hacc⟩ := parseStringLiteral_ok_iff.mp h
  have htidy : TidyFrom .inside (body ++ '"' :: p.2) := by simpa [TidyFrom] using hs.2
  exact ⟨body, hacc.literal htidy, by simp⟩

/-! ## Constants -/

/-- The character behind a bin type, after a blank: a colon behind a key, otherwise a comma or the end of the collection. -/
def EndsType (role : Role) (delim c : Char) : Prop := if role.isKey then c = ':' else c = ',' ∨ c = delim

/-- The delimiters of the collections are stops. -/
theorem EndsType.stops {role : Role} {delim c : Char} (h : EndsType role delim c) (hd : Stops delim) : Stops c := by
  unfold EndsType at h
  split at h
  · rw [h]
    decide
  · rcases h with rfl | rfl
    · decide
    · exact hd

theorem tidy_drop {a r : Text} (ha : '"' ∉ a) (h : TidyFrom .outside (a ++ r)) : TidyFrom .outside r := by
  induction a with
  | nil => exact h
  | cons c a ih =>
    simp only [List.mem_cons, not_or] at ha
    exact ih ha.2 ((tidy_cons (Ne.symm ha.1) _).mp h).2

theorem opening_space {space t : Text} (h : Opening (space ++ t)) (hs : ∀ c ∈ space, isSpace c = true) : space = [] := by
  cases space with
  | nil => rfl
  | cons c space =>
    have hspace := h.space
    rw [List.cons_append, peek_cons, hs c List.mem_cons_self] at hspace
    exact Bool.noConfusion hspace

/-- An integer constant that is read is documented. -/
theorem constInteger_written {s r : Text} {c : Scalar} (h : constInteger s = .ok (c, r)) (hs : Opening s)
    (hr : Stops (peek (skipBlank r))) : ∃ a, s = a ++ r ∧ WrittenScalar c a := by
  unfold constInteger at h
  simp only at h
  split at h
  · simp [failAt] at h
  next scan hscan =>
  split at h
  · simp [failAt] at h
  next herr =>
  simp only [Except.ok.injEq, Prod.mk.injEq] at h
  obtain ⟨rfl, rfl⟩ := h
  have herr : scan.erange = false := by simpa using herr
  split at hscan
  · next hx =>
    obtain ⟨q, hq, rfl⟩ := Option.map_eq_some_iff.mp hscan
    have hne : peek s.tail ≠ '\x00' := by rcases hx.2 with h | h <;> rw [h] <;> decide
    have htext : s = '0' :: peek s.tail :: s.tail.tail := by
      rw [← eq_cons_of_peek rfl hne]
      exact eq_cons_of_peek hx.1 (by decide)
    rw [htext] at hq
    rcases strtoul_hex_some hx.2 hq herr with ⟨ds, hds, hrest, hval, hlt⟩ | hrest
    · refine ⟨'0' :: peek s.tail :: ds, ?_, Or.inr ⟨_, ds, hx.2, hds, by omega, rfl, by rw [hval]⟩, by simp⟩
      rw [List.cons_append, List.cons_append, ← hrest]
      exact htext
    · -- a lone zero would be left in front of the mark
      have hmark : peek q.rest ≠ ' ' ∧ ¬ Stops (peek q.rest) := by
        rw [hrest]
        rcases hx.2 with h | h <;> rw [h] <;> decide
      dsimp only at hr
      rw [skipBlank_of_ne hmark.1] at hr
      exact absurd hr hmark.2
  · obtain ⟨space, sign, ds, hspace, hsign, hds, htext, hval, hlo, hhi⟩ := strtol_some (by omega) (by omega) hscan herr
    rw [htext] at hs
    obtain rfl := opening_space hs hspace
    refine ⟨sign ++ ds, by rw [htext, List.nil_append, List.append_assoc],
      Or.inl ⟨sign, ds, hsign, hds, rfl, hval, hlo, hhi⟩, fun hp => ?_⟩
    have hplus : peek (sign ++ (ds ++ scan.rest)) ≠ '+' := hs.plus
    have hne : sign ++ ds ≠ [] := by simp [hds.ne_nil]
    rw [← List.append_assoc] at hplus
    obtain ⟨d, a, ha⟩ := List.exists_cons_of_ne_nil hne
    rw [ha] at hp hplus
    exact hplus hp

/-- No point is in the window of a token without point, in front of what ends a bin type. -/
theorem not_mem_window {delim : Char} {tok r : Text} (htok : '.' ∉ tok) (hend : peek (skipBlank r) = ',' ∨ peek (skipBlank r) = delim) :
    '.' ∉ numberWindow delim (tok ++ r) := by
  induction tok with
  | nil =>
    obtain ⟨g, hg, hr⟩ := exists_gap r
    have hstop : numberWindow delim (skipBlank r) = [] := by
      cases hs : skipBlank r with
      | nil => rfl
      | cons c t =>
        rw [hs, peek_cons] at hend
        rcases hend with rfl | rfl <;> simp [numberWindow]
    rw [List.nil_append, hr]
    rcases hg with rfl | rfl
    · simp [hstop]
    · unfold numberWindow at hstop ⊢
      rw [List.singleton_append, List.takeWhile_cons, hstop]
      split <;> simp
  | cons c tok ih =>
    simp only [List.mem_cons, not_or] at htok
    unfold numberWindow at ih ⊢
    rw [List.cons_append, List.takeWhile_cons]
    split
    · simp only [List.mem_cons, not_or]
      exact ⟨htok.1, ih htok.2⟩
    · simp

/-- A double constant that is read is documented. -/
theorem constDouble_written {role : Role} {delim : Char} {s r : Text} {c : Scalar} (h : constDouble role s = .ok (c, r))
    (hpoint : '.' ∈ numberWindow delim s) (hs : Tidy s) (hend : EndsType role delim (peek (skipBlank r))) :
    ∃ a, s = a ++ r ∧ WrittenScalar c a := by
  obtain ⟨hkey, -, -⟩ := constDouble_ok h
  simp only [EndsType, hkey, Bool.false_eq_true, if_false] at hend
  unfold constDouble at h
  split at h
  · simp [failAt] at h
  next scan hscan =>
  split at h
  · simp [failAt] at h
  next herr =>
  rw [hkey, if_neg (by simp)] at h
  simp only [Except.ok.injEq, Prod.mk.injEq] at h
  obtain ⟨rfl, hrest⟩ := h
  -- the f that may stand behind the number
  obtain ⟨marked, hmarked⟩ : ∃ marked : Bool, scan.rest = (if marked then ['f'] else []) ++ r := by
    split at hrest
    · next hf => exact ⟨true, by rw [← hrest]; exact eq_cons_of_peek hf (by decide)⟩
    · exact ⟨false, by simpa using hrest⟩
  obtain ⟨sign, hsign, hstext, hneg⟩ := readSign_eq s
  simp only [strtod, skipSpace_of_not hs.opening.space, Option.map_eq_some_iff, Prod.exists] at hscan
  obtain ⟨m, rest, hmag, rfl⟩ := hscan
  dsimp only at hmarked herr
  rcases readMagnitude_some hmag with ⟨d, hd, rfl⟩ | ⟨x, body, hx, hbody, hp⟩ | ⟨tok, htok, hfree⟩
  · refine ⟨(DoubleLiteral.mk d (readSign s).1 marked).literal, ?_, ⟨d, (readSign s).1, marked⟩, rfl, rfl, by simpa using herr⟩
    have hminus : sign = if (readSign s).1 then ['-'] else [] := by
      rcases hsign with rfl | rfl | rfl
      · simp [hneg]
      · rw [hstext] at hs
        exact absurd rfl hs.opening.plus
      · simp [hneg]
    calc s = sign ++ (d.text ++ rest) := by rw [← hd]; exact hstext
      _ = sign ++ (d.text ++ ((if marked then ['f'] else []) ++ r)) := by rw [hmarked]
      _ = (DoubleLiteral.mk d (readSign s).1 marked).literal ++ r := by
        simp only [DoubleLiteral.literal, ← hminus, List.append_assoc]
  · -- a hexadecimal number with a point is not tidy
    have hfree : '"' ∉ sign ++ ['0'] := by rcases hsign with rfl | rfl | rfl <;> decide
    have htidy : TidyFrom .outside (x :: body) := by
      refine tidy_drop hfree ?_
      rw [List.append_assoc, List.singleton_append, ← hbody, ← hstext]
      exact hs.plain
    have hplain := ((tidy_cons (by rcases hx with rfl | rfl <;> decide) body).mp htidy).1
    exact absurd hp (hplain.point hx)
  · refine absurd hpoint ?_
    rw [hstext, htok, hmarked, ← List.append_assoc, ← List.append_assoc]
    refine not_mem_window ?_ hend
    have hsignfree : '.' ∉ sign := by rcases hsign with rfl | rfl | rfl <;> decide
    have hffree : '.' ∉ (if marked then ['f'] else []) := by cases marked <;> decide
    simp [hsignfree, hfree, hffree]

/-- A boolean written as a word. -/
theorem constWord_written {role : Role} {b : Bool} {w s r : Text} {c : Scalar} (h : constWord role b w s = .ok (c, r)) :
    c = .constBool b ∧ ∃ a, s = a ++ r ∧ a.map Char.toLower = w := by
  unfold constWord at h
  split at h
  · next r' hr' =>
    split at h
    · simp [failAt] at h
    · obtain ⟨-, hp⟩ := constBoolean_ok h
      simp only [Prod.mk.injEq] at hp
      obtain ⟨rfl, rfl⟩ := hp
      exact ⟨rfl, dropWord_some hr'⟩
  · simp [failAt] at h

/-- A boolean written as a letter. -/
theorem constLetter_written {role : Role} {b : Bool} {d : Char} {s r : Text} {c : Scalar} (hs : peek s = d) (hd : d ≠ '\x00')
    (h : constBoolean role b s s.tail = .ok (c, r)) : c = .constBool b ∧ s = [d] ++ r := by
  obtain ⟨-, hp⟩ := constBoolean_ok h
  simp only [Prod.mk.injEq] at hp
  obtain ⟨rfl, rfl⟩ := hp
  exact ⟨rfl, eq_cons_of_peek hs hd⟩

/-- A constant that is read is documented. -/
theorem parseConstVal_written {role : Role} {delim : Char} {s r : Text} {c : Scalar} (h : parseConstVal role delim s = .ok (c, r))
    (hs : Tidy s) (hd : Stops delim) (hend : EndsType role delim (peek (skipBlank r))) : ∃ a, s = a ++ r ∧ WrittenScalar c a := by
  unfold parseConstVal at h
  split at h
  · next ht =>
    obtain ⟨rfl, htext⟩ := constLetter_written ht.1 (by decide) h
    exact ⟨_, htext, Or.inl rfl⟩
  split at h
  · obtain ⟨rfl, a, htext, ha⟩ := constWord_written h
    exact ⟨a, htext, Or.inr ha⟩
  split at h
  · next hf =>
    obtain ⟨rfl, htext⟩ := constLetter_written hf.1 (by decide) h
    exact ⟨_, htext, Or.inl rfl⟩
  split at h
  · obtain ⟨rfl, a, htext, ha⟩ := constWord_written h
    exact ⟨a, htext, Or.inr ha⟩
  split at h
  · split at h
    · simp [failAt] at h
    · next p hp =>
      simp only [Except.ok.injEq, Prod.mk.injEq] at h
      obtain ⟨rfl, rfl⟩ := h
      obtain ⟨body, hbody, htext⟩ := parseStringLiteral_written hp hs.plain
      exact ⟨_, htext, body, p.1, hbody, rfl, rfl⟩
  split at h
  · next hp => exact constDouble_written h hp hs hend
  · exact constInteger_written h hs.opening (hend.stops hd)

/-! ## Multipliers and bin types -/

/-- A multiplier that is read is documented, and behind it a bin type can start. -/
theorem readMultiplier_written {role : Role} {s b : Text} {n : Nat} (h : readMultiplier role s = .ok (n, b)) (hs : Tidy s) :
    (∃ m, s = m ++ b ∧ RendersMult n m) ∧ Tidy b := by
  have one : (.ok (1, s) : Except Fail (Nat × Text)) = .ok (n, b) → (∃ m, s = m ++ b ∧ RendersMult n m) ∧ Tidy b := by
    intro h
    simp only [Except.ok.injEq, Prod.mk.injEq] at h
    obtain ⟨rfl, rfl⟩ := h
    exact ⟨⟨[], rfl, Or.inl ⟨rfl, rfl⟩⟩, hs⟩
  unfold readMultiplier at h
  split at h
  · exact one h
  next scan hscan =>
  split at h
  · exact one h
  next hdigit =>
  split at h
  · next hstar =>
    split at h
    · simp [failAt] at h
    split at h
    · simp [failAt] at h
    split at h
    · simp [failAt] at h
    next hbig =>
    simp only [Except.ok.injEq, Prod.mk.injEq] at h
    obtain ⟨rfl, rfl⟩ := h
    have hfirst : isDigit 10 (peek s) = true := by
      by_contra hno
      exact hdigit (Or.inr (by simpa using hno))
    obtain ⟨ds, hds, hrest, hval⟩ := strtoul_some (by omega) (by omega) hscan hfirst (by omega)
    obtain ⟨g, hg, hgap⟩ := exists_gap scan.rest
    obtain ⟨g', hg', hgap'⟩ := exists_gap (skipBlank scan.rest).tail
    have hcons := eq_cons_of_peek hstar (by decide)
    have htext : s = (ds ++ g) ++ skipBlank scan.rest := by rw [List.append_assoc, ← hgap, ← hrest]
    have hfree : '"' ∉ ds ++ g := by
      have hgq : '"' ∉ g := by rcases hg with rfl | rfl <;> decide
      have hdq : '"' ∉ ds := fun hq => absurd (hds.all _ hq) (by decide)
      simp [hgq, hdq]
    have htidy : TidyFrom .outside (skipBlank scan.rest) := tidy_drop hfree (htext ▸ hs.plain)
    refine ⟨⟨ds ++ (g ++ '*' :: g'), ?_, Or.inr ⟨ds, g, g', ⟨hds, hval⟩, hg, hg', rfl⟩⟩, Tidy.next htidy hstar (by decide)⟩
    calc s = (ds ++ g) ++ '*' :: (skipBlank scan.rest).tail := by rw [← hcons]; exact htext
      _ = (ds ++ g) ++ '*' :: (g' ++ skipBlank (skipBlank scan.rest).tail) := by rw [← hgap']
      _ = ds ++ (g ++ '*' :: g') ++ skipBlank (skipBlank scan.rest).tail := by simp
  · exact one h

/-- The number behind an `S` or a `B` is documented. -/
theorem readLength_written {missing invalid : String} {make : Nat → Scalar} {s r : Text} {c : Scalar} {d : Char}
    (h : readLength missing invalid make s = .ok (.scalar c, r)) (hd : d = 'S' ∨ d = 'B') (hs : PlainAt d s) :
    ∃ n ds, c = make n ∧ Numeral n ds ∧ s = ds ++ r := by
  unfold readLength at h
  split at h
  · simp [failAt] at h
  next scan hscan =>
  split at h
  · simp [failAt] at h
  next hbig =>
  simp only [Except.ok.injEq, Prod.mk.injEq, Token.scalar.injEq] at h
  obtain ⟨rfl, rfl⟩ := h
  obtain ⟨ds, hds, hrest, hval⟩ := strtoul_some (by omega) (by omega) hscan (hs.length hd (by simp [hscan])) (by omega)
  exact ⟨_, ds, rfl, ⟨hds, hval⟩, hrest⟩

/-- The constant behind a token. -/
theorem parseConstVal_of_readConstant {role : Role} {delim : Char} {mult : Nat} {s r : Text} {t : Token}
    (h : readConstant role delim mult s = .ok (t, r)) : ∃ c, t = .scalar c ∧ parseConstVal role delim s = .ok (c, r) := by
  unfold readConstant at h
  split at h
  · simp at h
  next c r' hc =>
  have hok : (.ok (.scalar c, r') : Except Fail (Token × Text)) = .ok (t, r) → t = .scalar c ∧ r' = r := by
    intro h
    simp only [Except.ok.injEq, Prod.mk.injEq] at h
    exact ⟨h.1.symm, h.2⟩
  refine ⟨c, ?_⟩
  rw [hc]
  split at h
  · split at h
    · simp at h
    split at h
    · simp at h
    · obtain ⟨ht, rfl⟩ := hok h
      exact ⟨ht, rfl⟩
  · obtain ⟨ht, rfl⟩ := hok h
    exact ⟨ht, rfl⟩

/-- What a token that is read says about the text: a scalar is documented, a bracket stands at its place. -/
def Token.FoundAt (s r : Text) : Token → Prop
  | .scalar c => ∃ a, s = a ++ r ∧ WrittenScalar c a
  | .openList => peek s = '[' ∧ r = skipBlank s.tail
  | .openMap => peek s = '\x7b' ∧ r = skipBlank s.tail

theorem readToken_written {role : Role} {delim : Char} {mult : Nat} {s r : Text} {t : Token}
    (h : readToken role delim mult s = .ok (t, r)) (hs : Tidy s) (hd : Stops delim)
    (hend : ∀ c, t = .scalar c → EndsType role delim (peek (skipBlank r))) : t.FoundAt s r := by
  -- a bin type of one letter that no key may have
  have letter : ∀ {msg : String} {d : Char} {c : Scalar}, peek s = d → d ≠ '\x00' →
      unlessKey role msg s (.scalar c) s.tail = .ok (t, r) → WrittenScalar c [d] → t.FoundAt s r := by
    intro msg d c hc hne h hw
    obtain ⟨-, hp⟩ := unlessKey_ok h
    simp only [Prod.mk.injEq] at hp
    obtain ⟨rfl, rfl⟩ := hp
    exact ⟨[d], eq_cons_of_peek hc hne, hw⟩
  -- an S or a B and its number
  have length : ∀ {missing invalid : String} {make : Nat → Scalar} {d : Char}, peek s = d → d = 'S' ∨ d = 'B' →
      readLength missing invalid make s.tail = .ok (t, r) →
      (∀ {n : Nat} {ds : Text}, Numeral n ds → WrittenScalar (make n) (d :: ds)) → t.FoundAt s r := by
    intro missing invalid make d hc hsb h hw
    have hne : d ≠ '\x00' ∧ d ≠ '"' := by rcases hsb with rfl | rfl <;> decide
    obtain ⟨n, -, rfl, -⟩ := readLength_ok h
    obtain ⟨n', ds, heq, hnum, htext⟩ := readLength_written h hsb (hs.plain.tail hc hne.1 hne.2).1
    refine ⟨d :: ds, ?_, heq ▸ hw hnum⟩
    rw [List.cons_append, ← htext]
    exact eq_cons_of_peek hc hne.1
  unfold readToken at h
  split at h
  · next hc => exact letter hc (by decide) h rfl
  split at h
  · next hc =>
    have hcons := eq_cons_of_peek hc (by decide)
    split at h
    · next hr =>
      simp only [Except.ok.injEq, Prod.mk.injEq] at h
      obtain ⟨rfl, rfl⟩ := h
      have hlow : 49 ≤ (peek s.tail).toNat := hr.1
      have hchar : Char.ofNat ((peek s.tail).toNat - 49 + 49) = peek s.tail := by
        rw [Nat.sub_add_cancel hlow, Char.ofNat_toNat]
      have hne : peek s.tail ≠ '\x00' := by
        intro h0
        rw [h0] at hlow
        exact absurd hlow (by decide)
      refine ⟨['I', peek s.tail], ?_, Or.inl (by rw [hchar])⟩
      rw [List.cons_append, List.singleton_append, ← eq_cons_of_peek rfl hne]
      exact hcons
    · simp only [Except.ok.injEq, Prod.mk.injEq] at h
      obtain ⟨rfl, rfl⟩ := h
      exact ⟨['I'], hcons, Or.inr ⟨rfl, rfl⟩⟩
  split at h
  · next hc => exact length hc (Or.inl rfl) h fun hn => ⟨_, hn, rfl⟩
  split at h
  · next hc => exact length hc (Or.inr rfl) h fun hn => ⟨_, hn, rfl⟩
  split at h
  · next hc => exact letter hc (by decide) h rfl
  split at h
  · next hc =>
    obtain ⟨-, hp⟩ := unlessKey_ok h
    simp only [Prod.mk.injEq] at hp
    obtain ⟨rfl, rfl⟩ := hp
    exact ⟨hc, rfl⟩
  split at h
  · next hc =>
    obtain ⟨-, hp⟩ := unlessKey_ok h
    simp only [Prod.mk.injEq] at hp
    obtain ⟨rfl, rfl⟩ := hp
    exact ⟨hc, rfl⟩
  · obtain ⟨c, rfl, hconst⟩ := parseConstVal_of_readConstant h
    exact parseConstVal_written hconst hs hd (hend c rfl)

/-- A multiplier and a bin type that are read: the documented multiplier and the token behind it, in a tidy text. -/
theorem readElement_written {role : Role} {delim : Char} {s r : Text} {n : Nat} {t : Token}
    (h : readElement role delim s = .ok (n, t, r)) (hs : Tidy s) (hd : Stops delim)
    (hend : ∀ c, t = .scalar c → EndsType role delim (peek (skipBlank r))) :
    ∃ m b, s = m ++ b ∧ RendersMult n m ∧ Tidy b ∧ t.FoundAt b r := by
  obtain ⟨b, hm, ht⟩ := readElement_parts h
  obtain ⟨⟨m, htext, hmult⟩, htidy⟩ := readMultiplier_written hm hs
  exact ⟨m, b, htext, hmult, htidy, readToken_written ht htidy hd hend⟩

/-- A scalar with its multiplier that is read is documented. -/
theorem readLeaf_written {role : Role} {delim : Char} {s r : Text} {l : Leaf}
    (h : readElement role delim s = .ok (l.mult, .scalar l.type, r)) (hs : Tidy s) (hd : Stops delim)
    (hend : EndsType role delim (peek (skipBlank r))) : ∃ a, s = a ++ r ∧ WrittenLeaf l a := by
  obtain ⟨m, b, rfl, hm, -, a, rfl, ha⟩ := readElement_written h hs hd fun _ _ => hend
  exact ⟨m ++ a, (List.append_assoc _ _ _).symm, m, a, hm, ha, rfl⟩

end AerospikeBenchmark
