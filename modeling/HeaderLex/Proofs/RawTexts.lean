import HeaderLex.Proofs.Crashes
import HeaderLex.Proofs.ErrorLog
import HeaderLex.Proofs.ErrorOrigins
import HeaderLex.Proofs.LiteralBodies
import HeaderLex.Proofs.Yield

/-!
# Where raw text ends

Raw text begins behind a gap and runs up to the first place where it may end: the end of the source,
the end of a line, or a terminator that is neither escaped nor, where quotes count, quoted.  The scanner
takes the character behind a backslash along without a look at it, so an escaped line feed does not end
the text but joins two lines.

* `RawText.escaped`, `RawText.quoted`   what stands before a place, read backwards;
* `RawText.MayEnd`                      the places where raw text may end, with lines joined or not;
* `FirstEnd`                            the first one of them;
* `RawText.finds_scanAll`               the scan finds it, with lines joined;
* `FirstEnd.unjoined_iff`               it is the first one too where no line feed joins lines,
                                        exactly if it has no line feed before it;
* `Lexer.rawText_eq`                    reading raw text, by the first end;
* `raw_text_ends_iff`                   all this over every run.
-/

namespace HeaderLex

/-! ## first ends -/

/-- The text `u` runs up to the first place of a text where it may end, and `v` follows there.  Before
the text stands `before`, given backwards. -/
structure FirstEnd (Ends : List Char → List Char → Prop) (before text u v : List Char) : Prop where
  cut : u ++ v = text
  ends : Ends (u.reverse ++ before) v
  least {u' v' : List Char} : u' ++ v' = text → Ends (u'.reverse ++ before) v' →
    u.length ≤ u'.length

namespace FirstEnd

variable {Ends : List Char → List Char → Prop} {before text u v u' v' : List Char} {c : Char}

theorem here (h : Ends before text) : FirstEnd Ends before text [] text :=
  ⟨rfl, h, fun _ _ => Nat.zero_le _⟩

theorem cons (hc : ¬ Ends before (c :: text)) (h : FirstEnd Ends (c :: before) text u v) :
    FirstEnd Ends before (c :: text) (c :: u) v where
  cut := congrArg (c :: ·) h.cut
  ends := by
    rw [List.reverse_cons, List.append_assoc]
    exact h.ends
  least {u' v'} hcut hends := by
    cases u' with
    | nil =>
      obtain rfl : v' = c :: text := hcut
      exact absurd hends hc
    | cons d ds =>
      obtain ⟨rfl, hrest⟩ := List.cons.inj hcut
      rw [List.reverse_cons, List.append_assoc] at hends
      exact Nat.succ_le_succ (h.least hrest hends)

theorem unique (h : FirstEnd Ends before text u v) (h' : FirstEnd Ends before text u' v') :
    u = u' ∧ v = v' := by
  have hlength : u.length = u'.length :=
    Nat.le_antisymm (h.least h'.cut h'.ends) (h'.least h.cut h.ends)
  exact List.append_inj (h.cut.trans h'.cut.symm) hlength

/-- A place inside the text before the first end has a part of this text before it. -/
theorem exists_of_lt (h : FirstEnd Ends before text u v) (hcut : u' ++ v' = text)
    (hlt : u'.length < u.length) : ∃ c w, u = u' ++ c :: w ∧ v' = c :: (w ++ v) := by
  obtain ⟨w, rfl, rfl⟩ | ⟨w, rfl, rfl⟩ := List.append_eq_append_iff.1 (h.cut.trans hcut.symm)
  · rw [List.length_append] at hlt
    omega
  · cases w with
    | nil =>
      rw [List.append_nil] at hlt
      exact absurd hlt (Nat.lt_irrefl _)
    | cons c w => exact ⟨c, w, rfl, rfl⟩

end FirstEnd

/-! ## the places where raw text may end -/

namespace RawText

/-- The character behind a text, given backwards, is escaped: a backslash stands before it that is
not escaped itself. -/
def escaped : List Char → Bool
  | [] => false
  | c :: before => c == '\\' && !escaped before

/-- Double quotes are open behind a text, given backwards.  Escaped ones do not count. -/
def quoted : List Char → Bool
  | [] => false
  | c :: before => quoted before != (c == '"' && !escaped before)

/-- Raw text may end behind the text `before`, given backwards, in front of another one.  With `joins`,
an escaped line feed joins two lines. -/
inductive MayEnd (joins : Bool) (terminator : Char) (respectQuotes : Bool) (before : List Char) :
    List Char → Prop
  | source : MayEnd joins terminator respectQuotes before []
  | line {rest : List Char} : (joins = true → escaped before = false) →
      MayEnd joins terminator respectQuotes before ('\n' :: rest)
  | terminator {rest : List Char} : escaped before = false →
      (respectQuotes = true → quoted before = false) →
      MayEnd joins terminator respectQuotes before (terminator :: rest)

section

variable {before : List Char} {c : Char}

theorem escaped_backslash (h : escaped before = false) : escaped ('\\' :: before) = true := by
  rw [escaped, h]
  rfl

theorem escaped_of_ne (hc : c ≠ '\\') : escaped (c :: before) = false := by
  rw [escaped, beq_false_of_ne hc, Bool.false_and]

/-- An escaped character escapes nothing. -/
theorem escaped_of_escaped (h : escaped before = true) : escaped (c :: before) = false := by
  rw [escaped, h, Bool.not_true, Bool.and_false]

theorem quoted_of_escaped (h : escaped before = true) : quoted (c :: before) = quoted before := by
  rw [quoted, h, Bool.not_true, Bool.and_false, Bool.bne_false]

theorem quoted_backslash (before : List Char) : quoted ('\\' :: before) = quoted before :=
  Bool.bne_false _

end

variable {joins : Bool} {terminator : Char} {respectQuotes : Bool} {before rest : List Char} {c : Char}

theorem MayEnd.unjoined (h : MayEnd true terminator respectQuotes before rest) :
    MayEnd false terminator respectQuotes before rest := by
  cases h with
  | source => exact .source
  | line => exact .line (fun hjoins => by cases hjoins)
  | terminator hescaped hquoted => exact .terminator hescaped hquoted

/-- Only at a line feed does it matter whether lines are joined. -/
theorem MayEnd.joined (h : MayEnd joins terminator respectQuotes before (c :: rest)) (hc : c ≠ '\n') :
    MayEnd true terminator respectQuotes before (c :: rest) := by
  cases h with
  | line => exact absurd rfl hc
  | terminator hescaped hquoted => exact .terminator hescaped hquoted

/-- With lines joined, raw text does not end in front of an escaped character. -/
theorem not_mayEnd_of_escaped (hescaped : escaped before = true) :
    ¬ MayEnd true terminator respectQuotes before (c :: rest) := by
  intro h
  cases h with
  | line hline =>
    rw [hline rfl] at hescaped
    cases hescaped
  | terminator hterminator =>
    rw [hterminator] at hescaped
    cases hescaped

theorem not_mayEnd_backslash (hterminator : terminator ≠ '\\') :
    ¬ MayEnd joins terminator respectQuotes before ('\\' :: rest) := by
  intro h
  cases h with
  | terminator => exact hterminator rfl

end RawText

open RawText (MayEnd)

namespace FirstEnd

variable {terminator : Char} {respectQuotes : Bool} {before text u v : List Char}

/-- The first end with lines joined is the first one without, exactly if no line feed stands before
it. -/
theorem unjoined_iff (h : FirstEnd (MayEnd true terminator respectQuotes) before text u v) :
    FirstEnd (MayEnd false terminator respectQuotes) before text u v ↔ '\n' ∉ u := by
  constructor
  · intro h' hmem
    obtain ⟨a, b, rfl⟩ := List.append_of_mem hmem
    have hcut : a ++ '\n' :: (b ++ v) = text := by rw [← h.cut, List.append_assoc, List.cons_append]
    have hle := h'.least hcut (.line fun hjoins => by cases hjoins)
    rw [List.length_append, List.length_cons] at hle
    omega
  · intro hnone
    refine ⟨h.cut, h.ends.unjoined, ?_⟩
    intro u' v' hcut hends
    refine Nat.le_of_not_lt fun hlt => ?_
    obtain ⟨c, w, rfl, rfl⟩ := h.exists_of_lt hcut hlt
    have hc : c ≠ '\n' := by
      rintro rfl
      exact hnone (List.mem_append_right _ List.mem_cons_self)
    exact absurd hlt (Nat.not_lt_of_le (h.least hcut (hends.joined hc)))

end FirstEnd

/-! ## the scan -/

namespace RawText

/-- The terminator is not a character with a meaning of its own. -/
structure Plain (terminator : Char) (respectQuotes : Bool) : Prop where
  backslash : terminator ≠ '\\'
  feed : terminator ≠ '\n'
  quote : respectQuotes = true → terminator ≠ '"'

/-- In front of a character that is not escaped and no line feed, raw text may end just where the scan
stops. -/
theorem mayEnd_cons_iff {terminator c : Char} {respectQuotes : Bool} {before rest : List Char}
    (hplain : Plain terminator respectQuotes) (hescaped : escaped before = false) (hc : c ≠ '\n') :
    MayEnd true terminator respectQuotes before (c :: rest) ↔
      (!(c == '"' && respectQuotes) && c == terminator && !(respectQuotes && quoted before)) = true := by
  constructor
  · intro h
    cases h with
    | line => exact absurd rfl hc
    | terminator _ hopen =>
      cases respectQuotes with
      | false => simp
      | true => simp [hplain.quote rfl, hopen rfl]
  · intro h
    simp only [Bool.and_eq_true, Bool.not_eq_true', beq_iff_eq] at h
    obtain ⟨⟨-, rfl⟩, hclosed⟩ := h
    refine .terminator hescaped fun hrespect => ?_
    rwa [hrespect] at hclosed

/-- Raw text that was cut from a text behind `before`, given backwards: it ends at the first place where
it may, with lines joined, and says how. -/
structure Finds (terminator : Char) (respectQuotes : Bool) (before text : List Char) (r : RawText) :
    Prop where
  first : FirstEnd (MayEnd true terminator respectQuotes) before text r.text r.rest
  inQuotes : r.inQuotes = (respectQuotes && quoted (r.text.reverse ++ before))
  atTerminator : r.atTerminator = true ↔ r.rest.head? = some terminator

variable {terminator c d : Char} {respectQuotes : Bool} {before text : List Char} {r : RawText}

theorem Finds.prepend (hc : ¬ MayEnd true terminator respectQuotes before (c :: text))
    (h : Finds terminator respectQuotes (c :: before) text r) :
    Finds terminator respectQuotes before (c :: text) (r.prepend [c]) where
  first := h.first.cons hc
  inQuotes := by
    show r.inQuotes = (respectQuotes && quoted ((c :: r.text).reverse ++ before))
    rw [List.reverse_cons, List.append_assoc]
    exact h.inQuotes
  atTerminator := h.atTerminator

/-- A backslash takes the character behind it along. -/
theorem Finds.prepend_escape (hterminator : terminator ≠ '\\') (hescaped : escaped before = false)
    (h : Finds terminator respectQuotes (c :: '\\' :: before) text r) :
    Finds terminator respectQuotes before ('\\' :: c :: text) (r.prepend ['\\', c]) := by
  have hc : escaped ('\\' :: before) = true := escaped_backslash hescaped
  exact (h.prepend (not_mayEnd_of_escaped hc)).prepend (not_mayEnd_backslash hterminator)

/-- Behind a text that escapes nothing, the scan finds the first end. -/
theorem finds_scanAll (hplain : Plain terminator respectQuotes) {inQuotes : Bool}
    (hescaped : escaped before = false) (hquoted : inQuotes = (respectQuotes && quoted before)) :
    Finds terminator respectQuotes before text (scanAll terminator respectQuotes inQuotes text) := by
  fun_induction scanAll terminator respectQuotes inQuotes text generalizing before with
  | case1 => exact ⟨.here .source, hquoted, iff_of_false Bool.false_ne_true nofun⟩
  | case2 =>
    refine ⟨.here (.line fun _ => hescaped), hquoted, iff_of_false Bool.false_ne_true ?_⟩
    intro hhead
    exact hplain.feed (Option.some.inj hhead).symm
  | case3 inQuotes =>
    have hnil : Finds terminator respectQuotes ('\\' :: before) [] ⟨[], [], false, inQuotes⟩ :=
      ⟨.here .source, hquoted.trans (congrArg (respectQuotes && ·) (quoted_backslash before).symm),
        iff_of_false Bool.false_ne_true nofun⟩
    exact hnil.prepend (not_mayEnd_backslash hplain.backslash)
  | case4 inQuotes c cs ih =>
    have hc : escaped ('\\' :: before) = true := escaped_backslash hescaped
    refine Finds.prepend_escape hplain.backslash hescaped (ih (escaped_of_escaped hc) ?_)
    rw [quoted_of_escaped hc, quoted_backslash]
    exact hquoted
  | case5 inQuotes c cs hn hb hb' quote =>
    rename_i hstop
    subst hquoted
    have hends : MayEnd true terminator respectQuotes before (c :: cs) :=
      (mayEnd_cons_iff hplain hescaped hn).mpr hstop
    simp only [Bool.and_eq_true, Bool.not_eq_true', beq_iff_eq] at hstop
    exact ⟨.here hends, hstop.2.symm, iff_of_true rfl (congrArg some hstop.1.2)⟩
  | case6 inQuotes c cs hn hb hb' quote =>
    rename_i hgo ih
    subst hquoted
    have hc : c ≠ '\\' := by
      rintro rfl
      cases cs with
      | nil => exact hb rfl rfl
      | cons d ds => exact hb' d ds rfl rfl
    refine (ih (escaped_of_ne hc) ?_).prepend (mt (mayEnd_cons_iff hplain hescaped hn).mp hgo)
    rw [quoted, hescaped]
    cases respectQuotes <;> simp [quote]

theorem exists_firstEnd (hplain : Plain terminator respectQuotes) (text : List Char) :
    ∃ u v, FirstEnd (MayEnd true terminator respectQuotes) [] text u v :=
  ⟨_, _, (finds_scanAll hplain rfl (Bool.and_false respectQuotes).symm).first⟩

/-- What is taken along of the text behind raw text: the terminator, if it stands there and is not
kept. -/
def taken (terminator : Char) (options : RawTextOptions) (rest : List Char) : List Char :=
  if rest.head? = some terminator ∧ options.keepTerminator = false then [terminator] else []

theorem Finds.taken_eq {options : RawTextOptions} (h : Finds terminator respectQuotes before text r) :
    (if r.atTerminator && !options.keepTerminator then [terminator] else [])
      = taken terminator options r.rest := by
  simp only [taken, Bool.and_eq_true, h.atTerminator, Bool.not_eq_true']

theorem taken_append (options : RawTextOptions) (rest : List Char) :
    taken terminator options rest ++ rest.drop (taken terminator options rest).length = rest := by
  unfold taken
  split
  · next hhead =>
    obtain ⟨tail, rfl⟩ := List.head?_eq_some_iff.1 hhead.1
    rfl
  · rfl

/-- Only a terminator is taken along. -/
theorem head?_of_taken {options : RawTextOptions} {rest : List Char}
    (h : taken terminator options rest ≠ []) : rest.head? = some terminator := by
  unfold taken at h
  split at h
  · next hhead => exact hhead.1
  · exact absurd rfl h

end RawText

/-! ## reading raw text -/

namespace Lexer

open Bytewise (Grounded)

/-- The lexer stands between the text `front` and the text `rest`, and no token is current. -/
structure Splits (lx : Lexer) (front rest : List Char) : Prop where
  current : lx.current = none
  before : lx.cursor.before = front.reverse
  rest : lx.cursor.rest = rest
  offset : lx.cursor.position.offset = Text.byteLength front

/-- The lexer, with its current token put back, stands behind the text `front` of its source.  The gap
there is whole and ends in front of `text`. -/
structure Opens (lx : Lexer) (source front gap text : List Char) : Prop where
  source : source = front ++ (gap ++ text)
  place : lx.unget.Splits front (gap ++ text)
  gap : IsGap gap text
  whole : GapPiece.next? text = .ok none

/-- The lexer has read the raw text `s` from `text`, behind the text `front`: up to the first place
where it may end, without the blanks before it.  It stands there, or behind the terminator. -/
structure HasRead (lx : Lexer) (joins : Bool) (terminator : Char) (options : RawTextOptions)
    (front text : List Char) (s : String) (u v : List Char) : Prop where
  first : FirstEnd (MayEnd joins terminator options.respectQuotes) [] text u v
  value : s.toList = Text.trimEnd u
  stands : lx.Splits (front ++ (u ++ RawText.taken terminator options v))
    (v.drop (RawText.taken terminator options v).length)

variable {lx lx' : Lexer} {source front gap text rest u v : List Char} {terminator : Char}
  {options : RawTextOptions} {s : String}

theorem Splits.advance {lines : Nat} (h : lx.Splits front (text ++ rest))
    (hcurrent : lx'.current = none)
    (hcursor : lx'.cursor = lx.cursor.advance text rest lines) : lx'.Splits (front ++ text) rest where
  current := hcurrent
  before := by
    rw [hcursor, List.reverse_append, ← h.before]
    rfl
  rest := by rw [hcursor, Cursor.rest_advance]
  offset := by
    rw [hcursor, Text.byteLength_append, ← h.offset]
    rfl

theorem Splits.unique {front' rest' : List Char} (h : lx.Splits front rest)
    (h' : lx.Splits front' rest') : front = front' :=
  List.reverse_inj.1 (h.before.symm.trans h'.before)

/-- Raw text can begin, or the gap in front of it is broken. -/
theorem opens_or_broken (h : Grounded source lx.cursor lx.current) :
    (∃ front gap text, lx.Opens source front gap text) ∨ ∃ e, lx.unget.skipGap.1 = some e := by
  cases hgap : lx.unget.skipGap.1 with
  | some e => exact .inr ⟨e, rfl⟩
  | none =>
    obtain ⟨row, hrow, htext, -⟩ := lx.unget.skipGap_row
    have hwithin : lx.unget.cursor.Within source := h.unget
    have hplace : lx.unget.Splits lx.unget.cursor.before.reverse lx.unget.cursor.rest :=
      ⟨lx.current_unget, (List.reverse_reverse _).symm, rfl, by
        rw [Text.byteLength_reverse]
        exact hwithin.offset⟩
    have hwhole :=
      Margin.next?_skip ⟨lx.unget.cursor, lx.unget.comments, lx.unget.metrics.comments⟩
    rw [Option.map_eq_none_iff.1 hgap] at hwhole
    rw [htext] at hplace
    refine .inl ⟨_, rowText row, _, ⟨?_, hplace, ⟨row, rfl, hrow⟩, hwhole⟩⟩
    rw [← htext]
    exact hwithin.text.symm

theorem Opens.skipGap (h : lx.Opens source front gap text) :
    lx.unget.skipGap.1 = none ∧ lx.unget.skipGap.2.Splits (front ++ gap) text := by
  obtain ⟨row, rfl, hrow⟩ := h.gap
  obtain ⟨hnone, hcursor⟩ := skipGap_of_row hrow h.place.rest h.whole
  exact ⟨hnone, h.place.advance lx.current_unget hcursor⟩

theorem rawText_of_broken {e : SourceError} (h : lx.unget.skipGap.1 = some e) :
    (lx.rawText terminator options).result = .error (.source e) := by
  unfold rawText
  dsimp only
  rw [h]
  rfl

/-- Reading raw text where it can begin, by the first place where it may end. -/
theorem rawText_eq (hplain : RawText.Plain terminator options.respectQuotes)
    (hopens : lx.Opens source front gap text)
    (hfirst : FirstEnd (MayEnd true terminator options.respectQuotes) [] text u v) :
    let after := lx.unget.skipGap.2
    lx.rawText terminator options =
      if maxText < Text.byteLength u then
        after.refuse ⟨.stringTooLong maxText, after.cursor.position⟩
      else if options.respectQuotes && RawText.quoted u.reverse then
        after.refuse ⟨.unterminatedQuote, after.cursor.position⟩
      else .ok (String.ofList (Text.trimEnd u)) { after with
        cursor := after.cursor.advance (u ++ RawText.taken terminator options v)
          (v.drop (RawText.taken terminator options v).length) 0 } := by
  obtain ⟨hgap, hsplits⟩ := hopens.skipGap
  have hfinds : RawText.Finds terminator options.respectQuotes [] text
      (RawText.scanAll terminator options.respectQuotes false text) :=
    RawText.finds_scanAll hplain rfl (Bool.and_false _).symm
  obtain ⟨rfl, rfl⟩ := hfirst.unique hfinds.first
  have hquotes := hfinds.inQuotes
  rw [List.append_nil] at hquotes
  have hscan := @RawText.scan_eq terminator options.respectQuotes 0 (Nat.zero_le _) false text
  rw [Nat.zero_add] at hscan
  dsimp only
  rw [← hquotes, ← hfinds.taken_eq]
  unfold rawText
  dsimp only
  rw [hgap, hsplits.rest]
  dsimp only
  rw [hscan]
  by_cases hlong : maxText < Text.byteLength
      (RawText.scanAll terminator options.respectQuotes false text).text
  · rw [limited_of_lt hlong, if_pos hlong]
  · rw [limited_of_not_lt hlong, if_neg hlong]

/-- Raw text is read exactly where it can begin, is not too long and does not end in quotes. -/
theorem rawText_answers_iff (hplain : RawText.Plain terminator options.respectQuotes)
    (h : Grounded source lx.cursor lx.current) :
    (∃ s, (lx.rawText terminator options).result = .ok s) ↔
      ∃ front gap text u v, lx.Opens source front gap text ∧
        FirstEnd (MayEnd true terminator options.respectQuotes) [] text u v ∧
        Text.byteLength u ≤ maxText ∧
        (options.respectQuotes && RawText.quoted u.reverse) = false := by
  constructor
  · rintro ⟨s, hok⟩
    obtain ⟨front, gap, text, hopens⟩ | ⟨e, hbroken⟩ := opens_or_broken h
    · obtain ⟨u, v, hfirst⟩ := RawText.exists_firstEnd hplain text
      refine ⟨front, gap, text, u, v, hopens, hfirst, ?_⟩
      rw [rawText_eq hplain hopens hfirst] at hok
      split at hok
      · cases hok
      · next hle =>
        split at hok
        · cases hok
        · next hclosed => exact ⟨Nat.le_of_not_lt hle, Bool.eq_false_iff.2 hclosed⟩
    · rw [rawText_of_broken hbroken] at hok
      cases hok
  · rintro ⟨front, gap, text, u, v, hopens, hfirst, hle, hclosed⟩
    refine ⟨String.ofList (Text.trimEnd u), ?_⟩
    rw [rawText_eq hplain hopens hfirst, if_neg (Nat.not_lt_of_le hle),
      if_neg (Bool.eq_false_iff.1 hclosed)]
    rfl

/-- What was read, and where the lexer stands then. -/
theorem hasRead_rawText (hplain : RawText.Plain terminator options.respectQuotes)
    (h : Grounded source lx.cursor lx.current)
    (hok : (lx.rawText terminator options).result = .ok s) :
    ∃ front gap text u v, lx.Opens source front gap text ∧
      (lx.rawText terminator options).state.HasRead true terminator options (front ++ gap) text s
        u v := by
  obtain ⟨front, gap, text, u, v, hopens, hfirst, hle, hclosed⟩ :=
    (rawText_answers_iff hplain h).1 ⟨s, hok⟩
  refine ⟨front, gap, text, u, v, hopens, ?_⟩
  rw [rawText_eq hplain hopens hfirst, if_neg (Nat.not_lt_of_le hle),
    if_neg (Bool.eq_false_iff.1 hclosed)] at hok ⊢
  obtain rfl := Except.ok.inj hok
  obtain ⟨-, hsplits⟩ := hopens.skipGap
  rw [← hfirst.cut, ← RawText.taken_append options v, ← List.append_assoc] at hsplits
  exact ⟨hfirst, String.toList_ofList, hsplits.advance hsplits.current rfl⟩

/-- Reading fails for open quotes only at the end of a line or of the source. -/
theorem unterminated_rawText (hplain : RawText.Plain terminator options.respectQuotes)
    (h : Grounded source lx.cursor lx.current) {e : SourceError}
    (herror : (lx.rawText terminator options).result = .error (.source e))
    (hcause : e.cause = .unterminatedQuote) :
    options.respectQuotes = true ∧ ∃ front gap text u v, lx.Opens source front gap text ∧
      FirstEnd (MayEnd true terminator options.respectQuotes) [] text u v ∧
      (v = [] ∨ v.head? = some '\n') ∧ RawText.quoted u.reverse = true ∧
      e.position.offset = Text.byteLength (front ++ gap) := by
  obtain ⟨front, gap, text, hopens⟩ | ⟨e', hbroken⟩ := opens_or_broken h
  · obtain ⟨u, v, hfirst⟩ := RawText.exists_firstEnd hplain text
    rw [rawText_eq hplain hopens hfirst] at herror
    split at herror
    · cases herror
      cases hcause
    split at herror
    · next hopen =>
      obtain ⟨hrespect, hquoted⟩ := Bool.and_eq_true_iff.1 hopen
      cases herror
      refine ⟨hrespect, front, gap, text, u, v, hopens, hfirst, ?_, hquoted, hopens.skipGap.2.offset⟩
      have hends := hfirst.ends
      rw [List.append_nil] at hends
      cases hends with
      | source => exact .inl rfl
      | line => exact .inr rfl
      | terminator _ hclosed =>
        rw [hclosed hrespect] at hquoted
        cases hquoted
    · cases herror
  · rw [rawText_of_broken hbroken] at herror
    cases herror
    have hgap := (skipGap_error hbroken).1
    rw [hcause] at hgap
    cases hgap

/-- What was read has no line feed and is what would be read without lines joined, with the lexer at the
same place, exactly if no line feed stands before the first end with lines joined. -/
theorem HasRead.unjoined_iff (hplain : RawText.Plain terminator options.respectQuotes)
    (h : lx.HasRead true terminator options front text s u v) :
    (∃ u' v', lx.HasRead false terminator options front text s u' v' ∧ '\n' ∉ s.toList) ↔ '\n' ∉ u := by
  constructor
  · rintro ⟨u', v', h', -⟩
    have htaken : u ++ RawText.taken terminator options v = u' ++ RawText.taken terminator options v' :=
      List.append_cancel_left (h.stands.unique h'.stands)
    have hle : u'.length ≤ u.length := h'.first.least h.first.cut h.first.ends.unjoined
    -- behind a shorter text the terminator was taken, where the scan would have stopped
    have hlength : u'.length = u.length := by
      refine Nat.le_antisymm hle (Nat.le_of_not_lt fun hlt => ?_)
      obtain ⟨c, w, hu, hv⟩ := h.first.exists_of_lt h'.first.cut hlt
      have hne : RawText.taken terminator options v' ≠ [] := by
        intro hnil
        have hbytes := congrArg List.length htaken
        rw [hnil, List.append_nil, List.length_append] at hbytes
        omega
      have hc : c = terminator := by
        have hhead := RawText.head?_of_taken hne
        rw [hv] at hhead
        exact Option.some.inj hhead
      have hends := h'.first.ends
      rw [hv, hc] at hends
      have hcut := h'.first.cut
      rw [hv, hc] at hcut
      exact absurd hlt (Nat.not_lt_of_le (h.first.least hcut (hends.joined hplain.feed)))
    obtain ⟨rfl, rfl⟩ := List.append_inj (h'.first.cut.trans h.first.cut.symm) hlength
    exact h.first.unjoined_iff.1 h'.first
  · intro hnone
    refine ⟨u, v, ⟨h.first.unjoined_iff.2 hnone, h.value, h.stands⟩, ?_⟩
    obtain ⟨blanks, htext, -⟩ := Text.dropEndWhile_append Text.isBlank u
    intro hmem
    apply hnone
    rw [h.value] at hmem
    rw [htext]
    exact List.mem_append_left _ hmem

end Lexer

/-! ## runs -/

/-- Raw text that is read after any operations runs up to the first place where it may end with lines
joined, and this is the first one without, exactly if no line feed stands before it.  Reading fails for
open quotes only where quotes count and are open at the end of the line or the source.  It fails for
nothing else than a broken gap, a text that is too long, and open quotes. -/
theorem raw_text_ends_iff (source : String) (preferences : LexicalPreferences)
    (p : Option Preprocessor) (ops : List Op) {terminator : Char} {options : RawTextOptions}
    (hplain : RawText.Plain terminator options.respectQuotes) :
    let lx := ((Lexer.ofSource source preferences).withPreprocessor p).run ops
    let o := lx.rawText terminator options
    (∀ s, o.result = .ok s → ∃ front gap text u v, lx.Opens source.toList front gap text ∧
      o.state.HasRead true terminator options (front ++ gap) text s u v ∧
      ((∃ u' v', o.state.HasRead false terminator options (front ++ gap) text s u' v' ∧
        '\n' ∉ s.toList) ↔ '\n' ∉ u)) ∧
    (∀ e, o.result = .error (.source e) → e.cause = .unterminatedQuote →
      options.respectQuotes = true ∧ ∃ front gap text u v, lx.Opens source.toList front gap text ∧
        FirstEnd (MayEnd true terminator options.respectQuotes) [] text u v ∧
        (v = [] ∨ v.head? = some '\n') ∧ RawText.quoted u.reverse = true ∧
        e.position.offset = Text.byteLength (front ++ gap)) ∧
    ((∃ s, o.result = .ok s) ↔ ∃ front gap text u v, lx.Opens source.toList front gap text ∧
      FirstEnd (MayEnd true terminator options.respectQuotes) [] text u v ∧
      Text.byteLength u ≤ maxText ∧ (options.respectQuotes && RawText.quoted u.reverse) = false) := by
  intro lx o
  have hgrounded := (Lexer.grounded_run source preferences p ops).place
  refine ⟨?_, fun e => Lexer.unterminated_rawText hplain hgrounded,
    Lexer.rawText_answers_iff hplain hgrounded⟩
  intro s hok
  obtain ⟨front, gap, text, u, v, hopens, hread⟩ := Lexer.hasRead_rawText hplain hgrounded hok
  exact ⟨front, gap, text, u, v, hopens, hread, hread.unjoined_iff hplain⟩

/-- The line feed behind a backslash does not end the raw text, so what is read is not what would be read
without lines joined.  With a quote that is not closed, reading fails at the end of the source. -/
theorem raw_text_ends_sample :
    let start (source : String) :=
      ((Lexer.ofSource source ⟨true, false, false, true⟩).withPreprocessor none).run []
    let joined := (start "a\\\nb, c").rawText ',' ⟨false, false⟩
    let unclosed := (start " \"a, b").rawText ',' ⟨true, false⟩
    RawText.Plain ',' false ∧ joined.result = .ok "a\\\nb" ∧
    (∃ front gap text u v, (start "a\\\nb, c").Opens "a\\\nb, c".toList front gap text ∧
      joined.state.HasRead true ',' ⟨false, false⟩ (front ++ gap) text "a\\\nb" u v ∧
      ¬ ∃ u' v', joined.state.HasRead false ',' ⟨false, false⟩ (front ++ gap) text "a\\\nb" u' v' ∧
        '\n' ∉ "a\\\nb".toList) ∧
    RawText.Plain ',' true ∧ unclosed.result = .error (.source ⟨.unterminatedQuote, ⟨1, 1⟩⟩) ∧
    ∃ front gap text u v, (start " \"a, b").Opens " \"a, b".toList front gap text ∧
      FirstEnd (MayEnd true ',' true) [] text u v ∧ (v = [] ∨ v.head? = some '\n') ∧
      RawText.quoted u.reverse = true := by
  intro start joined unclosed
  have hplain : RawText.Plain ',' false := ⟨by decide, by decide, nofun⟩
  have hplain' : RawText.Plain ',' true := ⟨by decide, by decide, fun _ => by decide⟩
  have hjoined : joined.result = .ok "a\\\nb" := ok_of_toOption (by decide +kernel)
  have hunclosed : unclosed.result = .error (.source ⟨.unterminatedQuote, ⟨1, 1⟩⟩) :=
    error_of_failure? (by decide +kernel)
  refine ⟨hplain, hjoined, ?_, hplain', hunclosed, ?_⟩
  · obtain ⟨hread, -⟩ := @raw_text_ends_iff "a\\\nb, c" ⟨true, false, false, true⟩ none [] ','
      ⟨false, false⟩ hplain
    obtain ⟨front, gap, text, u, v, hopens, hread, -⟩ := hread _ hjoined
    refine ⟨front, gap, text, u, v, hopens, hread, fun h => ?_⟩
    obtain ⟨u', v', -, hnone⟩ := h
    exact hnone (by decide)
  · obtain ⟨-, hfails, -⟩ := @raw_text_ends_iff " \"a, b" ⟨true, false, false, true⟩ none [] ','
      ⟨true, false⟩ hplain'
    obtain ⟨-, front, gap, text, u, v, hopens, hfirst, hend, hquoted, -⟩ := hfails _ hunclosed rfl
    exact ⟨front, gap, text, u, v, hopens, hfirst, hend, hquoted⟩

end HeaderLex
