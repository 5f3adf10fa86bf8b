import HeaderLex.Preprocessor.IllegalContents

/-!
# The search for illegal contents is exact

The search of an undecided region keeps one state of a small automaton, with one rule for a token
that does not fit: it may begin a new match.  Yet no match is missed and none is made up.

* `Offends`    what is illegal, said of the whole row of tokens up to the offending one;
* `progress`   the matched part that a state stands for;
* `Traces`     the state is the longest beginning of a function that the row ends with;
* `Traces.error_iff`, `Traces.check`   what one token does: the error exactly when it offends, and
  else the next state traces the longer row;
* `first_failure_iff`   a whole row of tokens.
-/

namespace HeaderLex

/-- What a token says: its kind and its text. -/
def Token.spelling (t : Token) : TokenKind × String := (t.kind, t.value)

namespace SerializeState

/-- The beginnings of serialization functions that are searched for. -/
def functions : List (List (TokenKind × String)) :=
  [[(.identifier, "void"), (.identifier, "Serialize"), (.symbol, "("), (.identifier, "FArchive")],
   [(.identifier, "void"), (.identifier, "Serialize"), (.symbol, "("),
    (.identifier, "FStructuredArchiveRecord")],
   [(.identifier, "void"), (.identifier, "Serialize"), (.symbol, "("),
    (.identifier, "FStructuredArchive"), (.symbol, "::"), (.identifier, "FRecord")]]

/-- What is illegal at the token `t` behind the tokens `before`, and its error: the name of a
markup macro, or the last token of a serialization function. -/
inductive Offends (before : List Token) (t : Token) : SourceError → Prop
  | markup (m : ReflectionMacro) (name : t.isWord m.spelling) :
      Offends before t ⟨.illegalMacroInConditional m.spelling, t.start⟩
  | serialize (f : List (TokenKind × String)) (known : f ∈ functions)
      (ends : f <:+ (before ++ [t]).map Token.spelling) :
      Offends before t ⟨.serializeInConditional, t.start⟩

/-- The token at an index of the row `ts`, which comes behind the tokens `before`, offends. -/
def OffendsAt (before ts : List Token) (i : Nat) (e : SourceError) : Prop :=
  ∃ t, ts[i]? = some t ∧ Offends (before ++ ts.take i) t e

/-- The answers of the search to a row of tokens, one for each. -/
def answers : SerializeState → List Token → List (Except SourceError Unit)
  | _, [] => []
  | s, t :: ts => (s.check t).1 :: (s.check t).2.answers ts

/-- The answer at the index is the first one that is an error. -/
def FirstFails (as : List (Except SourceError Unit)) (i : Nat) (e : SourceError) : Prop :=
  as[i]? = some (.error e) ∧ ∀ j < i, as[j]? = some (.ok ())

/-! ## What a state stands for -/

/-- The matched part of a serialization function. -/
def progress : SerializeState → List (TokenKind × String)
  | start => []
  | sawVoid => [(.identifier, "void")]
  | sawSerialize => [(.identifier, "void"), (.identifier, "Serialize")]
  | sawParen => [(.identifier, "void"), (.identifier, "Serialize"), (.symbol, "(")]
  | sawArchive => [(.identifier, "void"), (.identifier, "Serialize"), (.symbol, "("),
      (.identifier, "FStructuredArchive")]
  | sawScope => [(.identifier, "void"), (.identifier, "Serialize"), (.symbol, "("),
      (.identifier, "FStructuredArchive"), (.symbol, "::")]

/-- The row ends with the progress of the state, and with no longer one. -/
def Traces (s : SerializeState) (seen : List Token) : Prop :=
  ∀ p : SerializeState, p.progress <:+ seen.map Token.spelling ↔ p = start ∨ p = s

theorem isWord_iff (t : Token) (text : String) :
    t.isWord text = true ↔ t.spelling = (.identifier, text) := by
  simp [Token.isWord, Token.isIdentifier, Token.spelling]

theorem isOperator_iff (t : Token) (text : String) :
    t.isOperator text = true ↔ t.spelling = (.symbol, text) := by
  simp [Token.isOperator, Token.isSymbol, Token.spelling]

/-- A state goes on exactly where its progress does; one case for each pair of states. -/
theorem move_next (s p : SerializeState) (t : Token) :
    s.move t = .next p ↔ p.progress = s.progress ++ [t.spelling] := by
  have mark : t.isMark '(' = t.isOperator "(" := rfl
  cases s <;> simp only [move, mark, isWord_iff, isOperator_iff, Bool.or_eq_true] <;>
    cases p <;> simp [progress] <;> grind

theorem move_found (s : SerializeState) (t : Token) :
    s.move t = .found ↔ s.progress ++ [t.spelling] ∈ functions := by
  have mark : t.isMark '(' = t.isOperator "(" := rfl
  cases s <;> simp only [move, mark, isWord_iff, isOperator_iff, Bool.or_eq_true] <;>
    simp [progress, functions] <;> grind

/-- Without its last token the progress of a state is the progress of a state. -/
theorem progress_init (p : SerializeState) (l : List (TokenKind × String))
    (x : TokenKind × String) (h : p.progress = l ++ [x]) : ∃ q : SerializeState, q.progress = l := by
  have hl : l = p.progress.dropLast := by rw [h, List.dropLast_concat]
  cases p with
  | start => exact absurd h.symm (by simp [progress])
  | sawVoid => exact ⟨start, hl.symm⟩
  | sawSerialize => exact ⟨sawVoid, hl.symm⟩
  | sawParen => exact ⟨sawSerialize, hl.symm⟩
  | sawArchive => exact ⟨sawParen, hl.symm⟩
  | sawScope => exact ⟨sawArchive, hl.symm⟩

theorem function_init (f : List (TokenKind × String)) (known : f ∈ functions) :
    ∃ (q : SerializeState) (x : TokenKind × String), f = q.progress ++ [x] := by
  simp only [functions, List.mem_cons, List.not_mem_nil, or_false] at known
  rcases known with rfl | rfl | rfl
  · exact ⟨sawParen, _, rfl⟩
  · exact ⟨sawParen, _, rfl⟩
  · exact ⟨sawScope, _, rfl⟩

/-- Nothing is found at a beginning: every function is longer than one token. -/
theorem start_not_found (t : Token) : start.move t ≠ .found := by
  intro h
  rw [move_found] at h
  simp [progress, functions] at h

theorem next_of_void (s p : SerializeState) (t : Token) (void : t.isWord "void" = true)
    (h : s.move t = .next p) : p = sawVoid := by
  rw [move_next, (isWord_iff t "void").mp void] at h
  cases s <;> cases p <;> simp [progress] at h ⊢

theorem start_next_iff (p : SerializeState) (t : Token) :
    start.move t = .next p ↔ t.isWord "void" = true ∧ p = sawVoid := by
  constructor
  · intro h
    cases void : t.isWord "void" with
    | true => exact ⟨rfl, next_of_void start p t void h⟩
    | false => simp [move, void] at h
  · rintro ⟨void, rfl⟩
    simp [move, void]

/-! ## One token -/

/-- What the longer row ends with: the match that goes on, or a match that begins. -/
theorem Traces.suffix_iff {s : SerializeState} {seen : List Token} (h : s.Traces seen) (t : Token)
    (p : SerializeState) :
    p.progress <:+ (seen ++ [t]).map Token.spelling ↔
      p = start ∨ start.move t = .next p ∨ s.move t = .next p := by
  rw [List.map_append, List.map_singleton, List.suffix_concat_iff]
  constructor
  · rintro (hp | ⟨l, hp, hl⟩)
    · left
      cases p <;> simp [progress] at hp ⊢
    · right
      obtain ⟨q, rfl⟩ := progress_init p l _ hp
      rcases (h q).mp hl with rfl | rfl
      · exact .inl ((move_next _ _ _).mpr hp)
      · exact .inr ((move_next _ _ _).mpr hp)
  · rintro (rfl | hp | hp)
    · exact .inl rfl
    · exact .inr ⟨_, (move_next _ _ _).mp hp, (h start).mpr (.inl rfl)⟩
    · exact .inr ⟨_, (move_next _ _ _).mp hp, (h s).mpr (.inr rfl)⟩

theorem Traces.function_iff {s : SerializeState} {seen : List Token} (h : s.Traces seen)
    (t : Token) :
    (∃ f ∈ functions, f <:+ (seen ++ [t]).map Token.spelling) ↔ s.move t = .found := by
  rw [move_found, List.map_append, List.map_singleton]
  constructor
  · rintro ⟨f, known, hf⟩
    obtain ⟨q, x, rfl⟩ := function_init f known
    rcases List.suffix_concat_iff.mp hf with hnil | ⟨l, hl, ends⟩
    · exact absurd hnil (by simp)
    · obtain ⟨rfl, hx⟩ := List.append_inj' hl rfl
      obtain rfl : x = t.spelling := by simpa using hx
      rcases (h q).mp ends with rfl | rfl
      · exact absurd ((move_found _ _).mpr known) (start_not_found t)
      · exact known
  · intro known
    exact ⟨_, known, List.suffix_concat_iff.mpr (.inr ⟨_, rfl, (h s).mpr (.inr rfl)⟩)⟩

theorem markup_iff (t : Token) :
    (t.isIdentifier && Keyword.isReflectionMacro t.value) = true ↔
      ∃ m : ReflectionMacro, t.isWord m.spelling = true := by
  simp only [Keyword.isReflectionMacro, ReflectionMacro.ofSpelling?, Token.isWord, Bool.and_eq_true,
    List.find?_isSome, beq_iff_eq]
  constructor
  · rintro ⟨word, m, -, hm⟩
    exact ⟨m, word, hm.symm⟩
  · rintro ⟨m, word, hm⟩
    exact ⟨word, m, by cases m <;> simp [ReflectionMacro.all], hm.symm⟩

/-- The name of a markup macro is no part of a serialization function. -/
theorem not_found_of_markup (s : SerializeState) (t : Token) (m : ReflectionMacro)
    (h : t.isWord m.spelling = true) : s.move t ≠ .found := by
  intro found
  rw [move_found, (isWord_iff t _).mp h] at found
  cases s <;> cases m <;> simp [progress, functions, ReflectionMacro.spelling] at found

theorem Traces.offends_iff {s : SerializeState} {seen : List Token} (h : s.Traces seen) (t : Token)
    (e : SourceError) :
    Offends seen t e ↔
      (∃ m : ReflectionMacro, t.isWord m.spelling = true ∧
        e = ⟨.illegalMacroInConditional m.spelling, t.start⟩) ∨
      (s.move t = .found ∧ e = ⟨.serializeInConditional, t.start⟩) := by
  rw [← h.function_iff t]
  constructor
  · rintro (⟨m, name⟩ | ⟨f, known, ends⟩)
    · exact .inl ⟨m, name, rfl⟩
    · exact .inr ⟨⟨f, known, ends⟩, rfl⟩
  · rintro (⟨m, name, rfl⟩ | ⟨⟨f, known, ends⟩, rfl⟩)
    · exact .markup m name
    · exact .serialize f known ends

/-- A token is answered with an error exactly when it offends. -/
theorem Traces.error_iff {s : SerializeState} {seen : List Token} (h : s.Traces seen) (t : Token)
    (e : SourceError) : (s.check t).1 = .error e ↔ Offends seen t e := by
  rw [h.offends_iff, check]
  by_cases hm : (t.isIdentifier && Keyword.isReflectionMacro t.value) = true
  · obtain ⟨m, name⟩ := (markup_iff t).mp hm
    have value : t.value = m.spelling := by
      simp only [Token.isWord, Bool.and_eq_true, beq_iff_eq] at name
      exact name.2
    simp only [hm, if_true, not_found_of_markup s t m name, false_and, or_false]
    constructor
    · intro he
      cases he
      exact ⟨m, name, by rw [value]⟩
    · rintro ⟨m', name', rfl⟩
      simp only [Token.isWord, Bool.and_eq_true, beq_iff_eq] at name'
      rw [name'.2]
  · have no : ¬ ∃ m : ReflectionMacro, t.isWord m.spelling = true ∧
        e = ⟨.illegalMacroInConditional m.spelling, t.start⟩ := by
      rintro ⟨m, name, -⟩
      exact hm ((markup_iff t).mpr ⟨m, name⟩)
    simp only [hm, no, false_or]
    cases hs : s.move t with
    | next s' => simp
    | found => simp [eq_comm]
    | mismatch => simp

/-- After a token that does not offend, the state traces the longer row. -/
theorem Traces.check {s : SerializeState} {seen : List Token} (h : s.Traces seen) (t : Token)
    (ok : (s.check t).1 = .ok ()) : (s.check t).2.Traces (seen ++ [t]) := by
  intro p
  rw [h.suffix_iff t p, start_next_iff]
  revert ok
  rw [SerializeState.check]
  split
  · intro ok
    exact absurd ok (by simp)
  · cases hs : s.move t with
    | next s' =>
      intro _
      constructor
      · rintro (hp | ⟨void, rfl⟩ | hp)
        · exact .inl hp
        · exact .inr (next_of_void s s' t void hs).symm
        · cases hp
          exact .inr rfl
      · rintro (hp | rfl)
        · exact .inl hp
        · exact .inr (.inr rfl)
    | found =>
      intro ok
      exact absurd ok (by simp)
    | mismatch =>
      intro _
      cases void : t.isWord "void" <;> simp

theorem traces_start : start.Traces [] := by
  intro p
  cases p <;> simp [progress]

/-! ## A row of tokens -/

theorem firstFails_zero (a : Except SourceError Unit) (as : List (Except SourceError Unit))
    (e : SourceError) : FirstFails (a :: as) 0 e ↔ a = .error e := by
  simp [FirstFails]

theorem firstFails_succ (a : Except SourceError Unit) (as : List (Except SourceError Unit))
    (i : Nat) (e : SourceError) :
    FirstFails (a :: as) (i + 1) e ↔ a = .ok () ∧ FirstFails as i e := by
  constructor
  · rintro ⟨last, before⟩
    refine ⟨by simpa using before 0 (Nat.succ_pos i), by simpa using last, fun j hj => ?_⟩
    simpa using before (j + 1) (Nat.succ_lt_succ hj)
  · rintro ⟨ha, last, before⟩
    refine ⟨by simpa using last, fun j hj => ?_⟩
    cases j with
    | zero => simp [ha]
    | succ j => simpa using before j (Nat.lt_of_succ_lt_succ hj)

theorem offendsAt_zero (before : List Token) (t : Token) (ts : List Token) (e : SourceError) :
    OffendsAt before (t :: ts) 0 e ↔ Offends before t e := by
  simp [OffendsAt]

theorem offendsAt_succ (before : List Token) (t : Token) (ts : List Token) (i : Nat)
    (e : SourceError) :
    OffendsAt before (t :: ts) (i + 1) e ↔ OffendsAt (before ++ [t]) ts i e := by
  simp [OffendsAt]

theorem Traces.ok_iff {s : SerializeState} {seen : List Token} (h : s.Traces seen) (t : Token) :
    (s.check t).1 = .ok () ↔ ∀ e, ¬ Offends seen t e := by
  simp only [← h.error_iff]
  cases (s.check t).1 with
  | error e => simp
  | ok u => simp

theorem Traces.firstFails_iff {s : SerializeState} {seen : List Token} (h : s.Traces seen)
    (ts : List Token) (i : Nat) (e : SourceError) :
    FirstFails (s.answers ts) i e ↔
      OffendsAt seen ts i e ∧ ∀ j < i, ∀ e', ¬ OffendsAt seen ts j e' := by
  induction ts generalizing s seen i with
  | nil => simp [answers, FirstFails, OffendsAt]
  | cons t ts ih =>
    cases i with
    | zero => simp [answers, firstFails_zero, offendsAt_zero, h.error_iff]
    | succ i =>
      simp only [answers, firstFails_succ, offendsAt_succ]
      constructor
      · rintro ⟨ok, fails⟩
        obtain ⟨offends, first⟩ := (ih (h.check t ok) i).mp fails
        refine ⟨offends, fun j hj e' => ?_⟩
        cases j with
        | zero => exact fun he => (h.ok_iff t).mp ok e' ((offendsAt_zero _ _ _ _).mp he)
        | succ j =>
          exact fun he => first j (Nat.lt_of_succ_lt_succ hj) e' ((offendsAt_succ _ _ _ _ _).mp he)
      · rintro ⟨offends, first⟩
        have ok : (s.check t).1 = .ok () := (h.ok_iff t).mpr fun e' he =>
          first 0 (Nat.succ_pos i) e' ((offendsAt_zero _ _ _ _).mpr he)
        refine ⟨ok, (ih (h.check t ok) i).mpr ⟨offends, fun j hj e' he => ?_⟩⟩
        exact first (j + 1) (Nat.succ_lt_succ hj) e' ((offendsAt_succ _ _ _ _ _).mpr he)

theorem Traces.all_ok_iff {s : SerializeState} {seen : List Token} (h : s.Traces seen)
    (ts : List Token) :
    (∀ a ∈ s.answers ts, a = .ok ()) ↔ ∀ i e, ¬ OffendsAt seen ts i e := by
  induction ts generalizing s seen with
  | nil => simp [answers, OffendsAt]
  | cons t ts ih =>
    simp only [answers, List.forall_mem_cons]
    constructor
    · rintro ⟨ok, rest⟩ i e he
      cases i with
      | zero => exact (h.ok_iff t).mp ok e ((offendsAt_zero _ _ _ _).mp he)
      | succ i => exact (ih (h.check t ok)).mp rest i e ((offendsAt_succ _ _ _ _ _).mp he)
    · intro none
      have ok : (s.check t).1 = .ok () := (h.ok_iff t).mpr fun e he =>
        none 0 e ((offendsAt_zero _ _ _ _).mpr he)
      refine ⟨ok, (ih (h.check t ok)).mpr fun i e he => ?_⟩
      exact none (i + 1) e ((offendsAt_succ _ _ _ _ _).mpr he)

/-- The search of a row of tokens first fails at the first token that offends, with its error, and
if no token offends every answer is good. -/
theorem first_failure_iff (ts : List Token) :
    (∀ i e, FirstFails (start.answers ts) i e ↔
      OffendsAt [] ts i e ∧ ∀ j < i, ∀ e', ¬ OffendsAt [] ts j e') ∧
    ((∀ i e, ¬ OffendsAt [] ts i e) ↔ ∀ a ∈ start.answers ts, a = .ok ()) :=
  ⟨traces_start.firstFails_iff ts, (traces_start.all_ok_iff ts).symm⟩

/-- A match that breaks off may begin again at once: `void void Serialize ( FArchive` fails at its
last token. -/
example :
    let word (text : String) : Token := ⟨.identifier, text, ⟨0, 1⟩, ⟨0, 1⟩⟩
    start.answers [word "void", word "void", word "Serialize", ⟨.symbol, "(", ⟨0, 1⟩, ⟨0, 1⟩⟩,
      word "FArchive"] =
    [.ok (), .ok (), .ok (), .ok (), .error ⟨.serializeInConditional, ⟨0, 1⟩⟩] := by
  rfl

end SerializeState

end HeaderLex
