import AerospikeBenchmark.Lemmas.Literal
import AerospikeBenchmark.Theorems.ParserCompleteness

/-!
# String literals

What `parse_string_literal` stores for a literal, which literals it takes, and what is left of one when it becomes a constant of an
object spec.
-/

namespace AerospikeBenchmark

open CText SpecTree

/-! ## The second pass -/

/-- The second pass from `s` on, over `n` characters up to `stop`: every store is at one of the next `n` indices, and if no escape is in
error it ends at `stop`, with the characters `t` of the literal stored one after the other. -/
def Fills (stop s : Text) (n fuel : Nat) : Prop :=
  ∀ i, ∃ stores, fillBuffer (.ahead stop) fuel i (.ahead s) =
      some (stores, (decodeLiteral stop.length fuel s).map fun _ => .ahead stop) ∧
    (∀ w ∈ stores, i ≤ w.2 ∧ w.2 < i + n) ∧ ∀ t, decodeLiteral stop.length fuel s = .ok t → stores = t.zipIdx i ∧ t.length = n

/-- A store at the next index, and then those of the rest. -/
theorem stores_cons {c : Char} {i n : Nat} {stores : List (Char × Nat)} (h : ∀ w ∈ stores, i + 1 ≤ w.2 ∧ w.2 < i + 1 + n) :
    ∀ w ∈ (c, i) :: stores, i ≤ w.2 ∧ w.2 < i + (n + 1) := by
  refine List.forall_mem_cons.mpr ⟨⟨le_rfl, by simp⟩, fun w hw => ?_⟩
  have := h w hw
  omega

/-- A character is stored in front of the rest. -/
theorem store_then_rest {ε : Type} {stop : Text} {c : Char} {i n : Nat} {stores : List (Char × Nat)} {rest : Except ε Text}
    (hbelow : ∀ w ∈ stores, i + 1 ≤ w.2 ∧ w.2 < i + 1 + n)
    (hall : ∀ t, rest = .ok t → stores = t.zipIdx (i + 1) ∧ t.length = n) :
    ∃ stores', some ((c, i) :: stores, rest.map fun _ => Ptr.ahead stop) =
        some (stores', (rest >>= fun t => pure (c :: t)).map fun _ => Ptr.ahead stop) ∧
      (∀ w ∈ stores', i ≤ w.2 ∧ w.2 < i + (n + 1)) ∧
        ∀ t, (rest >>= fun t => pure (c :: t)) = .ok t → stores' = t.zipIdx i ∧ t.length = n + 1 := by
  cases rest with
  | error msg => exact ⟨_, rfl, stores_cons hbelow, fun t ht => by cases ht⟩
  | ok t' =>
    obtain ⟨rfl, hlen⟩ := hall t' rfl
    refine ⟨_, rfl, stores_cons hbelow, fun t ht => ?_⟩
    obtain rfl := Except.ok.inj ht
    exact ⟨rfl, by rw [List.length_cons, hlen]⟩

theorem fills_escape {stop s r : Text} {n fuel : Nat} (hescape : EscapeBefore s r) (hs : peek s = '\\') (hrest : Fills stop r n fuel)
    (hne : s.length ≠ stop.length) : Fills stop s (n + 1) (fuel + 1) := by
  intro i
  obtain ⟨stores, hfill, hbelow, hall⟩ := hrest (i + 1)
  rw [fillBuffer, decodeLiteral, if_neg hne, if_pos hs]
  simp only [Ptr.same_ahead, Ptr.load_ahead, beq_iff_eq, hne, hs, hescape.checked, if_false, if_true, Option.bind_eq_bind,
    Option.bind_some]
  cases hdecode : decodeEscape s.tail with
  | error msg => exact ⟨[], rfl, by simp, fun t ht => by cases ht⟩
  | ok p =>
    obtain ⟨d, q⟩ := p
    obtain rfl : q = r := hescape.rest _ hdecode
    simp only [ptrResult_ok, hfill, Option.bind_some, bind, Except.bind, pure, Except.pure]
    exact store_then_rest hbelow hall

theorem fills_plain {stop r : Text} {c : Char} {n fuel : Nat} (hb : c ≠ '\\') (hrest : Fills stop r n fuel)
    (hne : (c :: r).length ≠ stop.length) : Fills stop (c :: r) (n + 1) (fuel + 1) := by
  intro i
  obtain ⟨stores, hfill, hbelow, hall⟩ := hrest (i + 1)
  rw [fillBuffer, decodeLiteral, if_neg hne, peek_cons, if_neg hb]
  simp only [Ptr.same_ahead, Ptr.load_ahead, Ptr.succ_cons, beq_iff_eq, hne, peek_cons, hb, if_false, Option.bind_some,
    hfill, List.tail_cons, bind, Except.bind, pure, Except.pure]
  exact store_then_rest hbelow hall

/-- The second pass goes over what the first one has counted. -/
theorem fills_of_literalEnd (s : Text) : ∀ {fuel n : Nat} {stop : Text}, s.length ≤ fuel → '\x00' ∉ s →
    literalEnd s = .ok (n, stop) → Fills stop s n (fuel + 1) := by
  have further {r s : Text} {fuel n : Nat} {stop : Text} (hr : Advances s r) (hfuel : s.length ≤ fuel)
      (hnul : '\x00' ∉ s) (hstop : oneMore (literalEnd r) = .ok (n, stop))
      (ih : ∀ {fuel n : Nat} {stop : Text}, r.length ≤ fuel → '\x00' ∉ r → literalEnd r = .ok (n, stop) → Fills stop r n (fuel + 1)) :
      ∃ k, n = k + 1 ∧ Fills stop r k fuel ∧ s.length ≠ stop.length := by
    have hlt := hr.length_lt
    obtain ⟨k, hend, hn⟩ := oneMore_ok hstop
    have hle : stop.length ≤ r.length := (literalEnd_suffix r _ hend).1.length_le
    obtain ⟨fuel, rfl⟩ := Nat.exists_eq_succ_of_ne_zero (by omega : fuel ≠ 0)
    exact ⟨k, hn, ih (by omega) (fun h => hnul (hr.suffix.subset h)) hend, by omega⟩
  -- the induction follows the first pass; each case is a kind of character
  fun_induction literalEnd s with
  | case1 | case3 | case5 | case7 | case8 => intro fuel n stop _ _ h; simp at h
  | case2 r =>
    intro fuel n stop _ _ h i
    obtain ⟨rfl, rfl⟩ := Prod.mk.inj (Except.ok.inj h)
    refine ⟨[], by simp [fillBuffer, decodeLiteral, Except.map], by simp, fun t ht => ?_⟩
    obtain rfl : t = [] := by simpa [decodeLiteral] using ht.symm
    exact ⟨rfl, rfl⟩
  | case4 a b r _ ih =>
    intro fuel n stop hfuel hnul h
    obtain ⟨ha, hb, -⟩ : '\x00' ≠ a ∧ '\x00' ≠ b ∧ '\x00' ∉ r := by simpa using hnul
    obtain ⟨k, rfl, hrest, hne⟩ := further ⟨by simp, ⟨['x', a, b], rfl⟩⟩ hfuel hnul h ih
    exact fills_escape (escapeBefore_hex ha.symm hb.symm r) rfl hrest hne
  | case6 e hx he a b r hoctal _ ih =>
    intro fuel n stop hfuel hnul h
    obtain ⟨k, rfl, hrest, hne⟩ := further ⟨by simp, ⟨[e, a, b], rfl⟩⟩ hfuel hnul h ih
    exact fills_escape (escapeBefore_octal he a b r) rfl hrest hne
  | case9 e r hx he _ ih =>
    intro fuel n stop hfuel hnul h
    obtain ⟨k, rfl, hrest, hne⟩ := further ⟨by simp, ⟨[e], rfl⟩⟩ hfuel hnul h ih
    exact fills_escape (escapeBefore_other hx he r) rfl hrest hne
  | case10 c r hq hb ih =>
    intro fuel n stop hfuel hnul h
    obtain ⟨k, rfl, hrest, hne⟩ := further ⟨by simp, List.suffix_rfl⟩ hfuel hnul h ih
    exact fills_plain hb hrest hne

/-! ## The whole call -/

/-- What a call with the result `p` has stored and returned. -/
def literalBuffer (p : Text × Text) : List (Char × Nat) × Ptr := (p.1.zipIdx ++ [('\x00', p.1.length)], .ahead p.2)

/-- What holds of a call that comes to the second pass. -/
structure PassesAgree (run : LiteralRun) : Prop where
  below : ∀ w ∈ run.stores, w.2 < run.len
  stops : ∀ p, run.finish = .ok p → p = run.quote
  quote : run.quote.load = some '"'

theorem peek_of_literalEnd (s : Text) : ∀ p, literalEnd s = .ok p → peek p.2 = '"' := by
  have further : ∀ {r : Text}, (∀ p, literalEnd r = .ok p → peek p.2 = '"') → ∀ p, oneMore (literalEnd r) = .ok p → peek p.2 = '"' := by
    intro r ih p h
    obtain ⟨n, hr, -⟩ := oneMore_ok h
    exact ih (n, p.2) hr
  fun_induction literalEnd s with
  | case1 | case3 | case5 | case7 | case8 => intro p h; simp at h
  | case2 r =>
    intro p h
    obtain rfl := Except.ok.inj h
    rfl
  | case4 _ _ _ _ ih | case6 _ _ _ _ _ _ _ _ ih | case9 _ _ _ _ _ ih | case10 _ _ _ _ ih => exact further ih

/-- The call does what `parseStringLiteral` says, and its passes agree. -/
theorem runLiteral_spec {str : Text} (hnul : '\x00' ∉ str) :
    (∃ msg, runLiteral (.ahead str) = some (.error msg) ∧ parseStringLiteral str = .error msg) ∨
      ∃ run, runLiteral (.ahead str) = some (.ok run) ∧ PassesAgree run ∧ run.result = (parseStringLiteral str).map literalBuffer := by
  unfold runLiteral parseStringLiteral
  by_cases hq : peek str = '"'
  · obtain ⟨r, rfl⟩ : ∃ r, str = '"' :: r := ⟨str.tail, eq_cons_of_peek hq (by decide)⟩
    have hr : '\x00' ∉ r := fun h => hnul (List.mem_cons_of_mem _ h)
    simp only [Ptr.load_ahead, Ptr.string_ahead, Ptr.succ_cons, peek_cons, List.tail_cons, List.length_cons, if_true,
      Option.bind_eq_bind, Option.bind_some, checked_literalEnd r le_rfl hr]
    cases hend : literalEnd r with
    | error msg => exact .inl ⟨msg, rfl, rfl⟩
    | ok p =>
      obtain ⟨n, stop⟩ := p
      have hquote := peek_of_literalEnd r _ hend
      obtain ⟨stores, hfill, hbelow, hall⟩ := fills_of_literalEnd r le_rfl hr hend 0
      right
      simp only [ptrResult_ok, hfill, Option.bind_some, bind, Except.bind, pure, Except.pure]
      refine ⟨_, rfl, ⟨fun w hw => by simpa using (hbelow w hw).2, ?_, by simpa using hquote⟩, ?_⟩
      · intro p hp
        cases hd : decodeLiteral stop.length (r.length + 1) r with
        | error msg => simp [hd, Except.map] at hp
        | ok t => simpa [hd, Except.map] using hp.symm
      · cases hd : decodeLiteral stop.length (r.length + 1) r with
        | error msg => rfl
        | ok t =>
          obtain ⟨rfl, rfl⟩ := hall t hd
          simp only [LiteralRun.result, Except.map, literalBuffer, Ptr.succ_of_peek hquote (by decide)]
  · simp only [Ptr.load_ahead, Option.bind_eq_bind, Option.bind_some, hq, if_false]
    exact .inl ⟨_, rfl, rfl⟩

/-- On every string `parse_string_literal` reads nothing beyond the NUL; if it comes to the second pass, that pass stores below the
length that was counted and, unless it fails, ends at the closing quote. A literal that denotes `s` is stored as `s` with a NUL behind
it, and `endptr` is set past the closing quote, whatever follows. -/
theorem literal_decodes (str : Text) (hnul : '\x00' ∉ str) :
    (∀ body s r, LiteralBody body s → str = '"' :: (body ++ '"' :: r) → ∃ run, runLiteral (.ahead str) = some (.ok run) ∧
      run.result = .ok (s.zipIdx ++ [('\x00', s.length)], .ahead r)) ∧
    ∃ outcome, runLiteral (.ahead str) = some outcome ∧ ∀ run, outcome = .ok run → PassesAgree run := by
  refine ⟨fun body s r hbody htext => ?_, ?_⟩
  · have hparse : parseStringLiteral str = .ok (s, r) := parseStringLiteral_ok_iff.mpr ⟨body, htext, .of_literal hbody⟩
    rcases runLiteral_spec hnul with ⟨msg, -, herror⟩ | ⟨run, hrun, -, hresult⟩
    · cases herror.symm.trans hparse
    · exact ⟨run, hrun, by rw [hresult, hparse]; rfl⟩
  · rcases runLiteral_spec hnul with ⟨msg, hrun, -⟩ | ⟨run, hrun, hagree, -⟩
    · exact ⟨_, hrun, fun run h => by cases h⟩
    · refine ⟨_, hrun, fun run' h => ?_⟩
      obtain rfl := Except.ok.inj h
      exact hagree

/-- The literal `"a\x41\102\n"` before a colon. -/
theorem literal_decodes_escapes : ∃ run, runLiteral (.ahead "\"a\\x41\\102\\n\":".toList) = some (.ok run) ∧
    run.result = .ok ([('a', 0), ('A', 1), ('B', 2), ('\n', 3), ('\x00', 4)], .ahead [':']) :=
  (literal_decodes "\"a\\x41\\102\\n\":".toList (by decide)).1 "a\\x41\\102\\n".toList ['a', 'A', 'B', '\n'] [':']
    (.plain (by decide) (by decide) (.hex (by decide) (by decide) (.octal (by decide) (by decide) (by decide) (.simple rfl .nil)))) rfl

/-! ## Which literals are taken -/

/-- A literal that is taken is well formed exactly when every `\x` in it is followed by two hexadecimal digits. -/
theorem taken_literal_wellFormed_iff (str t r : Text) (htaken : parseStringLiteral str = .ok (t, r)) :
    ∃ body, str = '"' :: (body ++ '"' :: r) ∧ ((∃ s, LiteralBody body s) ↔ TidyFrom .inside body) := by
  obtain ⟨body, htext, hacc⟩ := parseStringLiteral_ok_iff.mp htaken
  refine ⟨body, htext, ?_, fun htidy => ⟨t, hacc.literal (r := []) (by rwa [List.append_nil])⟩⟩
  rintro ⟨s, hs⟩
  have hpassed := (tidy_literalBody hs []).mpr trivial
  rwa [List.append_nil] at hpassed

/-- The literal `"\x41"`. -/
theorem taken_literal_wellFormed_hex : parseStringLiteral "\"\\x41\"".toList = .ok (['A'], []) ∧
    ∃ body, "\"\\x41\"".toList = '"' :: (body ++ ['"']) ∧ ((∃ s, LiteralBody body s) ↔ TidyFrom .inside body) :=
  ⟨by decide +kernel, taken_literal_wellFormed_iff _ ['A'] [] (by decide +kernel)⟩

/-- White space in place of a hexadecimal digit is taken. -/
theorem blank_hex_taken : parseStringLiteral "\"\\x 1\"".toList = .ok (['\x01'], []) ∧
    ¬ ∃ s, LiteralBody "\\x 1".toList s := by
  refine ⟨by decide +kernel, ?_⟩
  rintro ⟨s, hs⟩
  have hpassed := (tidy_literalBody hs []).mpr trivial
  exact absurd hpassed (by decide)

/-! ## Literals as constants -/

theorem cString_eq_iff {t : Text} : cString t = t ↔ '\x00' ∉ t := by
  rw [cString, List.takeWhile_eq_self_iff]
  simp only [bne_iff_ne]
  exact ⟨fun h hmem => h _ hmem rfl, fun h c hc heq => h (heq ▸ hc)⟩

/-- A literal that denotes `t` is read as the constant `c` at some place of an object spec. -/
def ConstantOf (t : Text) (c : Scalar) : Prop :=
  ∃ role delim mult body r rest, LiteralBody body t ∧ readToken role delim mult ('"' :: (body ++ '"' :: r)) = .ok (.scalar c, rest)

theorem ConstantOf.eq {t : Text} {c : Scalar} (h : ConstantOf t c) : c = .constStr (cString t) := by
  obtain ⟨role, delim, mult, body, r, rest, hbody, hread⟩ := h
  rw [readToken_quote, readConstant, parseConstVal_literal hbody] at hread
  cases role with
  | elem | val => simpa using (Prod.mk.inj (Except.ok.inj hread)).1.symm
  | key seen =>
    simp only at hread
    split at hread
    · cases hread
    split at hread
    · cases hread
    · simpa using (Prod.mk.inj (Except.ok.inj hread)).1.symm

/-! ## Literals as the keys of a map -/

/-- A map with two literals as keys, both with random booleans as values. -/
def twoKeyMap (body body' : Text) : Text :=
  '\x7b' :: '"' :: (body ++ '"' :: ':' :: 'b' :: ',' :: '"' :: (body' ++ ['"', ':', 'b', '\x7d']))

/-- The value `b` of a pair is read. -/
theorem reads_bool (r : Text) : Reads .val '\x7d' (.leaf ⟨1, .bool⟩) ('b' :: r) r :=
  readElement_eq (readMultiplier_of_not_digit rfl _) (by simp [readToken, unlessKey, Role.isKey])

theorem twoKeyMap_accepted (R : AsRandom) {body body' t t' : Text} (h : LiteralBody body t) (h' : LiteralBody body' t')
    (hne : cString t ≠ cString t') :
    objSpecParse R (twoKeyMap body body') = .ok ⟨[.map 1 2 2 [(.scalar 1 (.constStr (cString t)), .scalar 1 .bool),
      (.scalar 1 (.constStr (cString t')), .scalar 1 .bool)]], 1⟩ := by
  have hpairs : ReadsPairs [] [(⟨1, .constStr (cString t)⟩, .leaf ⟨1, .bool⟩), (⟨1, .constStr (cString t')⟩, .leaf ⟨1, .bool⟩)]
      (twoKeyMap body body').tail ['\x7d'] := by
    have hfresh : repeatConstKey [.scalar 1 (.constStr (cString t))] (.constStr (cString t')) = false := by
      simpa [repeatConstKey, sameConstKey] using hne
    refine ⟨by simp [twoKeyMap], _, _, readElement_literalKey h rfl _, rfl, (by decide : 'b' ≠ '\x7d'), reads_bool _, .inr ⟨rfl, ?_⟩⟩
    exact ⟨(by decide : '"' ≠ '\x7d'), _, _, readElement_literalKey h' hfresh _, rfl, (by decide : 'b' ≠ '\x7d'), reads_bool _, .inl ⟨rfl, rfl, rfl⟩⟩
  have hopen : readElement .elem '\x00' (twoKeyMap body body') = .ok (1, .openMap, (twoKeyMap body body').tail) :=
    readElement_eq (readMultiplier_of_not_digit rfl _) rfl
  have hreads : ReadsElems '\x00' [.map 1 _] (twoKeyMap body body') [] :=
    ⟨(by decide : '\x7b' ≠ '\x00'), _, _, ⟨_, _, hopen, hpairs, by simp [keyTotal], rfl⟩, .inr ⟨by decide, rfl, rfl⟩, rfl, rfl⟩
  exact objSpecParse_ok_iff.mpr ⟨_, _, hreads, by simp [total, mult], rfl⟩

/-- The constant that a literal becomes is the string it denotes exactly when that string has no NUL. Without a NUL, literals of different
strings are different constants, also as keys, and a map with both as keys is accepted. -/
theorem constant_is_literal_iff (t : Text) (c : Scalar) (hconst : ConstantOf t c) :
    (c = .constStr t ↔ '\x00' ∉ t) ∧
    ∀ t' c', ConstantOf t' c' → t ≠ t' → '\x00' ∉ t → '\x00' ∉ t' → c ≠ c' ∧ sameConstKey c c' = false ∧
      ∀ R body body', LiteralBody body t → LiteralBody body' t' → objSpecParse R (twoKeyMap body body') =
        .ok ⟨[.map 1 2 2 [(.scalar 1 c, .scalar 1 .bool), (.scalar 1 c', .scalar 1 .bool)]], 1⟩ := by
  obtain rfl := hconst.eq
  refine ⟨by rw [Scalar.constStr.injEq, cString_eq_iff], fun t' c' hconst' hne hnul hnul' => ?_⟩
  obtain rfl := hconst'.eq
  have hdiff : cString t ≠ cString t' := by rwa [cString_eq_iff.mpr hnul, cString_eq_iff.mpr hnul']
  exact ⟨by simpa using hdiff, by simpa [sameConstKey] using hdiff, fun R body body' h h' => twoKeyMap_accepted R h h' hdiff⟩

/-- The literals `"a"` and `"b"`. -/
theorem constant_is_literal_letters : ConstantOf ['a'] (.constStr ['a']) ∧ ConstantOf ['b'] (.constStr ['b']) ∧
    objSpecParse .littleEndian "\x7b\"a\":b,\"b\":b\x7d".toList =
      .ok ⟨[.map 1 2 2 [(.scalar 1 (.constStr ['a']), .scalar 1 .bool), (.scalar 1 (.constStr ['b']), .scalar 1 .bool)]], 1⟩ := by
  have hbody : ∀ c : Char, c ≠ '"' → c ≠ '\\' → LiteralBody [c] [c] := fun c hq hb => .plain hq hb .nil
  have ha : ConstantOf ['a'] (.constStr ['a']) := ⟨.elem, '\x00', 1, ['a'], [], [], hbody 'a' (by decide) (by decide), by decide +kernel⟩
  have hb : ConstantOf ['b'] (.constStr ['b']) := ⟨.elem, '\x00', 1, ['b'], [], [], hbody 'b' (by decide) (by decide), by decide +kernel⟩
  refine ⟨ha, hb, ?_⟩
  exact ((constant_is_literal_iff ['a'] (.constStr ['a']) ha).2 ['b'] (.constStr ['b']) hb (by decide) (by decide) (by decide)).2.2
    .littleEndian ['a'] ['b'] (hbody 'a' (by decide) (by decide)) (hbody 'b' (by decide) (by decide))

/-- A literal with a NUL ends there, and two of them are one key. -/
theorem nul_literal_cut :
    LiteralBody "a\\x00b".toList ['a', '\x00', 'b'] ∧ LiteralBody "a\\x00c".toList ['a', '\x00', 'c'] ∧
    objSpecParse .littleEndian "\"a\\x00b\"".toList = .ok ⟨[.scalar 1 (.constStr ['a'])], 1⟩ ∧
    objSpecParse .littleEndian (twoKeyMap "a\\x00b".toList "a\\x00c".toList) = .error (.error ⟨"Key value is used more than once\n",
      "\"a\\x00c\":b\x7d".toList, [.map ⟨1, .key, false, [(.scalar 1 (.constStr ['a']), .scalar 1 .bool)], 1⟩, .list ⟨none, false, [], 0⟩],
      .freed (.constStr ['a'])⟩) := by
  have hbody : ∀ c : Char, c ≠ '"' → c ≠ '\\' → LiteralBody ['a', '\\', 'x', '0', '0', c] ['a', '\x00', c] :=
    fun c hq hb => .plain (by decide) (by decide) (.hex (by decide) (by decide) (.plain hq hb .nil))
  exact ⟨hbody 'b' (by decide) (by decide), hbody 'c' (by decide) (by decide), by decide +kernel, by decide +kernel⟩

end AerospikeBenchmark
