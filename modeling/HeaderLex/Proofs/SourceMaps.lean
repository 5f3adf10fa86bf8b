import HeaderLex.SourceMap
import Mathlib.Data.List.DropRight

/-!
# Source maps and counting

A source map finds a line by binary search among the offsets at which lines begin.  What it answers
is what plain counting says: line feeds before an offset, characters since the last one, and the
pieces between them.

* `SourceMap.upperBound_append`   the search finds the end of the entries that are small enough;
* `Text.lineSoFar`                the characters since the last line feed;
* `Text.splitOn_cut`              where a piece of a text stands;
* `source_map_counts`             positions, columns and lines of a source map, by counting.
-/

namespace HeaderLex

/-! ## the search -/

namespace SourceMap

theorem upperBound_append {low high : List Nat} {x lo hi : Nat} (hlow : ∀ y ∈ low, y ≤ x)
    (hhigh : ∀ y ∈ high, x < y) (hlo : lo ≤ low.length) (hhi : low.length ≤ hi)
    (hsize : hi ≤ low.length + high.length) :
    upperBound (low ++ high).toArray x lo hi = low.length := by
  have hget : ∀ i, (low ++ high).toArray.getD i 0 = (low ++ high)[i]?.getD 0 := fun i => by
    rw [Array.getD_eq_getD_getElem?, List.getElem?_toArray]
  fun_induction upperBound (low ++ high).toArray x lo hi with
  | case1 lo hi hlt mid hle ih =>
    -- an entry that is small enough stands among the low ones
    refine ih ?_ hhi hsize
    by_contra hmid
    have hmid : low.length ≤ mid := by omega
    have hlen : mid - low.length < high.length := by omega
    rw [hget, List.getElem?_append_right hmid, List.getElem?_eq_getElem hlen, Option.getD_some] at hle
    exact absurd (hhigh _ (List.getElem_mem hlen)) (Nat.not_lt.2 hle)
  | case2 lo hi hlt mid hle ih =>
    refine ih hlo ?_ (by omega)
    by_contra hmid
    have hlen : mid < low.length := by omega
    rw [hget, List.getElem?_append_left hlen, List.getElem?_eq_getElem hlen, Option.getD_some] at hle
    exact hle (hlow _ (List.getElem_mem hlen))
  | case3 lo hi hlt => omega

/-! ## the table -/

theorem startsAfter_append (offset : Nat) (s t : List Char) :
    startsAfter offset (s ++ t) = startsAfter offset s ++ startsAfter (offset + Text.byteLength s) t := by
  induction s generalizing offset with
  | nil => rfl
  | cons c s ih =>
    rw [List.cons_append, startsAfter, startsAfter, ih, Text.byteLength_cons, ← Nat.add_assoc]
    split <;> rfl

@[simp] theorem length_startsAfter (offset : Nat) (text : List Char) :
    (startsAfter offset text).length = Text.newlines text := by
  induction text generalizing offset with
  | nil => rfl
  | cons c cs ih =>
    unfold Text.newlines at ih ⊢
    rw [startsAfter, List.count_cons]
    by_cases hc : c = '\n'
    · simp [hc, ih]
    · simp [hc, ih]

theorem mem_startsAfter {offset x : Nat} {text : List Char} (h : x ∈ startsAfter offset text) :
    offset < x ∧ x ≤ offset + Text.byteLength text := by
  induction text generalizing offset with
  | nil => cases h
  | cons c cs ih =>
    have hc := c.utf8Size_pos
    have hrest : x ∈ startsAfter (offset + c.utf8Size) cs →
        offset < x ∧ x ≤ offset + Text.byteLength (c :: cs) := by
      intro h
      have := ih h
      rw [Text.byteLength_cons]
      omega
    rw [startsAfter] at h
    split at h
    · rcases List.mem_cons.1 h with rfl | h
      · rw [Text.byteLength_cons]
        omega
      · exact hrest h
    · exact hrest h

end SourceMap

/-! ## lines of a text -/

namespace Text

/-- The text before a line is empty or ends with a line feed. -/
def EndsLine (head : List Char) : Prop := head = [] ∨ ∃ front, head = front ++ ['\n']

/-- The characters of a text after its last line feed. -/
def lineSoFar (text : List Char) : List Char := text.rtakeWhile (· != '\n')

theorem lineSoFar_cut (text : List Char) :
    ∃ head, text = head ++ lineSoFar text ∧ EndsLine head ∧ newlines head = newlines text := by
  have htext : text.rdropWhile (· != '\n') ++ lineSoFar text = text :=
    List.rdropWhile_append_rtakeWhile
  refine ⟨text.rdropWhile (· != '\n'), htext.symm, ?_, ?_⟩
  · by_cases hnil : text.rdropWhile (· != '\n') = []
    · exact .inl hnil
    · have hlast := List.rdropWhile_last_not (· != '\n') text hnil
      simp only [bne_iff_ne, ne_eq, Decidable.not_not] at hlast
      have hfront := List.dropLast_append_getLast hnil
      rw [hlast] at hfront
      exact .inr ⟨_, hfront.symm⟩
  · have hnone : newlines (lineSoFar text) = 0 := by
      apply List.count_eq_zero_of_not_mem
      intro hmem
      exact absurd (List.mem_rtakeWhile_imp hmem) (by decide)
    conv_rhs => rw [← htext, newlines_append, hnone, Nat.add_zero]

theorem lineSoFar_append {s t : List Char} (ht : '\n' ∉ t) :
    lineSoFar (s ++ t) = lineSoFar s ++ t := by
  have hall : ∀ c ∈ t.reverse, (c != '\n') = true := by
    intro c hc
    rw [bne_iff_ne]
    rintro rfl
    exact ht (List.mem_reverse.1 hc)
  unfold lineSoFar List.rtakeWhile
  rw [List.reverse_append, List.takeWhile_append_of_pos hall, List.reverse_append,
    List.reverse_reverse]

/-- A text is its first line, with a line feed and the lines after it if there are any. -/
theorem splitOn_first (text : List Char) :
    (text.splitOn '\n' = [text] ∧ '\n' ∉ text) ∨
      ∃ first rest, text = first ++ '\n' :: rest ∧ '\n' ∉ first ∧
        text.splitOn '\n' = first :: rest.splitOn '\n' := by
  have hsingle : ∀ line : List Char, '\n' ∉ line → line.splitOn '\n' = [line] := by
    intro line hline
    apply List.splitOnP_eq_singleton
    intro c hc
    rw [beq_eq_false_iff_ne]
    rintro rfl
    exact hline hc
  by_cases hmem : '\n' ∈ text
  · obtain ⟨first, rest, htext, hfirst⟩ := List.eq_append_cons_of_mem hmem
    refine .inr ⟨first, rest, htext, hfirst, ?_⟩
    rw [htext]
    show (first ++ '\n' :: rest).splitOnP _ = _
    rw [List.splitOnP_append_cons _ _ (by decide)]
    show first.splitOn '\n' ++ rest.splitOn '\n' = _
    rw [hsingle first hfirst]
    rfl
  · exact .inl ⟨hsingle text hmem, hmem⟩

/-- The piece with a given number stands behind as many line feeds, up to the next one. -/
theorem splitOn_cut {number : Nat} {text : List Char} (h : number ≤ newlines text) :
    ∃ head piece tail, (text.splitOn '\n')[number]? = some piece ∧ text = head ++ (piece ++ tail) ∧
      EndsLine head ∧ newlines head = number ∧ '\n' ∉ piece ∧
      (tail = [] ∨ ∃ rest, tail = '\n' :: rest) := by
  induction number generalizing text with
  | zero =>
    rcases splitOn_first text with ⟨hsplit, hnone⟩ | ⟨first, rest, htext, hfirst, hsplit⟩
    · refine ⟨[], text, [], ?_, ?_, .inl rfl, rfl, hnone, .inl rfl⟩
      · rw [hsplit]
        rfl
      · simp
    · refine ⟨[], first, '\n' :: rest, ?_, htext, .inl rfl, rfl, hfirst, .inr ⟨rest, rfl⟩⟩
      rw [hsplit]
      rfl
  | succ number ih =>
    rcases splitOn_first text with ⟨-, hnone⟩ | ⟨first, rest, rfl, hfirst, hsplit⟩
    · have hzero : newlines text = 0 := List.count_eq_zero_of_not_mem hnone
      omega
    · have hzero : newlines first = 0 := List.count_eq_zero_of_not_mem hfirst
      have hone : ∀ s, newlines ('\n' :: s) = newlines s + 1 := fun s => List.count_cons_self
      have hrest : number ≤ newlines rest := by
        rw [newlines_append, hone] at h
        omega
      obtain ⟨head, piece, tail, hpiece, hcut, hhead, hnumber, hplain, htail⟩ := ih hrest
      refine ⟨first ++ '\n' :: head, piece, tail, ?_, ?_, ?_, ?_, hplain, htail⟩
      · rw [hsplit, List.getElem?_cons_succ]
        exact hpiece
      · rw [hcut]
        simp
      · rcases hhead with rfl | ⟨front, rfl⟩
        · exact .inr ⟨first, rfl⟩
        · exact .inr ⟨first ++ '\n' :: front, by simp⟩
      · rw [newlines_append, hone, hzero, hnumber, Nat.zero_add]

/-- Of two beginnings of a text the longer one goes on from the shorter one. -/
theorem prefix_of_byteLength_lt {text s s' t t' : List Char} (h : text = s ++ t)
    (h' : text = s' ++ t') (hlt : byteLength s < byteLength s') :
    ∃ d, d ≠ [] ∧ s' = s ++ d := by
  have hs : s <+: text := ⟨t, h.symm⟩
  have hs' : s' <+: text := ⟨t', h'.symm⟩
  rcases List.prefix_or_prefix_of_prefix hs hs' with ⟨d, rfl⟩ | ⟨d, rfl⟩
  · refine ⟨d, ?_, rfl⟩
    rintro rfl
    simp at hlt
  · rw [byteLength_append] at hlt
    omega

end Text

/-! ## the answers of a source map -/

namespace SourceMap

variable {source : String} {before after : List Char}

@[simp] theorem ofSource_source (source : String) : (ofSource source).source = source.toList := rfl

theorem ofSource_starts (source : String) :
    (ofSource source).lineStarts = (0 :: startsAfter 0 source.toList).toArray := rfl

@[simp] theorem ofSource_size (source : String) :
    (ofSource source).lineStarts.size = Text.newlines source.toList + 1 := by
  rw [ofSource_starts, List.size_toArray, List.length_cons, length_startsAfter]

/-- Where a line begins. -/
theorem ofSource_line (htext : source.toList = before ++ after) (hbefore : Text.EndsLine before) :
    (ofSource source).lineStarts.getD (Text.newlines before) 0 = Text.byteLength before := by
  rw [ofSource_starts, Array.getD_eq_getD_getElem?, List.getElem?_toArray, htext]
  rcases hbefore with rfl | ⟨front, rfl⟩
  · rfl
  · have hstarts : startsAfter 0 ((front ++ ['\n']) ++ after) = startsAfter 0 front ++
        Text.byteLength (front ++ ['\n']) :: startsAfter (Text.byteLength (front ++ ['\n'])) after := by
      rw [startsAfter_append, startsAfter_append, List.append_assoc, Nat.zero_add, Nat.zero_add,
        Text.byteLength_append]
      rfl
    have hindex : Text.newlines (front ++ ['\n']) = (startsAfter 0 front).length + 1 := by
      rw [Text.newlines_append, length_startsAfter]
      rfl
    rw [hstarts, hindex, List.getElem?_cons_succ, List.getElem?_append_right (Nat.le_refl _),
      Nat.sub_self]
    rfl

/-- The search among the line starts counts the line feeds before an offset. -/
theorem upperBound_ofSource (htext : source.toList = before ++ after) :
    upperBound (ofSource source).lineStarts (Text.byteLength before) 0
      (ofSource source).lineStarts.size = Text.newlines before + 1 := by
  have hlow : (0 :: startsAfter 0 before).length = Text.newlines before + 1 := by
    rw [List.length_cons, length_startsAfter]
  have hstarts : (ofSource source).lineStarts =
      ((0 :: startsAfter 0 before) ++ startsAfter (Text.byteLength before) after).toArray := by
    rw [ofSource_starts, htext, startsAfter_append, Nat.zero_add, List.cons_append]
  have hfound : upperBound (ofSource source).lineStarts (Text.byteLength before) 0
      (ofSource source).lineStarts.size = (0 :: startsAfter 0 before).length := by
    rw [ofSource_size, hstarts]
    apply upperBound_append
    · intro y hy
      rcases List.mem_cons.1 hy with rfl | hy
      · exact Nat.zero_le _
      · have := (mem_startsAfter hy).2
        omega
    · exact fun y hy => (mem_startsAfter hy).1
    · exact Nat.zero_le _
    · rw [hlow, htext, Text.newlines_append]
      omega
    · rw [hlow, length_startsAfter, htext, Text.newlines_append]
      omega
  rw [hfound, hlow]

section
variable (hlines : Text.newlines source.toList < Position.lineBound - 1)
include hlines

theorem positionAt_ofSource (htext : source.toList = before ++ after) :
    (ofSource source).positionAt (Text.byteLength before) =
      ⟨Text.byteLength before, Text.newlines before + 1⟩ := by
  have hle : Text.newlines before ≤ Text.newlines source.toList := by
    rw [htext, Text.newlines_append]
    omega
  have hmod : (Text.newlines before + 1) % Position.lineBound = Text.newlines before + 1 :=
    Nat.mod_eq_of_lt (by omega)
  rw [positionAt, upperBound_ofSource htext, hmod]

theorem columnAt_ofSource (htext : source.toList = before ++ after) :
    (ofSource source).columnAt (Text.byteLength before) =
      .ok (1 + (Text.lineSoFar before).length) := by
  obtain ⟨head, hbefore, hends, hcount⟩ := Text.lineSoFar_cut before
  have hcut : source.toList = head ++ (Text.lineSoFar before ++ after) := by
    rw [← List.append_assoc, ← hbefore, htext]
  have hlength : Text.byteLength before = Text.byteLength head + Text.byteLength (Text.lineSoFar before) := by
    rw [← Text.byteLength_append, ← hbefore]
  have hmin : min (Text.byteLength before) (Text.byteLength source.toList) = Text.byteLength before := by
    rw [htext, Text.byteLength_append]
    omega
  have hslice : Text.slice source.toList (Text.byteLength head) (Text.byteLength before) =
      .ok (Text.lineSoFar before) := by
    rw [hcut, hlength]
    exact Text.slice_append head (Text.lineSoFar before) after
  have hstart := ofSource_line hcut hends
  unfold columnAt
  rw [positionAt_ofSource hlines htext]
  dsimp only
  rw [Nat.add_sub_cancel, ← hcount, hstart]
  rw [ofSource_source, hmin, hslice, Nat.add_comm 1]
  rfl

end

theorem line?_ofSource_none {number : Nat}
    (h : number = 0 ∨ Text.newlines source.toList + 1 < number) :
    (ofSource source).line? number = none := by
  rw [line?, ofSource_size, if_pos h]

theorem line?_ofSource_some {number : Nat} (hpos : 1 ≤ number)
    (hle : number ≤ Text.newlines source.toList + 1) :
    ∃ piece, (source.toList.splitOn '\n')[number - 1]? = some piece ∧
      (ofSource source).line? number = some (Text.dropEndWhile (· == '\r') piece) := by
  have hindex : number - 1 ≤ Text.newlines source.toList := by omega
  obtain ⟨head, piece, tail, hpiece, hcut, hends, hcount, hplain, htail⟩ := Text.splitOn_cut hindex
  refine ⟨piece, hpiece, ?_⟩
  have hzero : Text.newlines piece = 0 := List.count_eq_zero_of_not_mem hplain
  have hlines : Text.newlines source.toList = number - 1 + Text.newlines tail := by
    rw [hcut, Text.newlines_append, Text.newlines_append, hcount, hzero, Nat.zero_add]
  have hstart : (ofSource source).lineStarts.getD (number - 1) 0 = Text.byteLength head := by
    rw [← hcount]
    exact ofSource_line hcut hends
  have hstop : (if number < (ofSource source).lineStarts.size
      then (ofSource source).lineStarts.getD number 0 - 1 else Text.byteLength source.toList) =
      Text.byteLength head + Text.byteLength piece := by
    rw [ofSource_size]
    rcases htail with rfl | ⟨rest, rfl⟩
    · have hlast : ¬ number < Text.newlines source.toList + 1 := by
        rw [hlines]
        simp only [Text.newlines, List.count_nil]
        omega
      rw [if_neg hlast, hcut, List.append_nil, Text.byteLength_append]
    · -- the next line begins behind the line feed that ends this one
      have hnext : Text.newlines (head ++ (piece ++ ['\n'])) = number := by
        rw [Text.newlines_append, Text.newlines_append, hcount, hzero]
        show number - 1 + (0 + 1) = number
        omega
      have hmore : number < Text.newlines source.toList + 1 := by
        rw [hlines]
        show number < number - 1 + List.count '\n' ('\n' :: rest) + 1
        rw [List.count_cons_self]
        omega
      have hcut' : source.toList = (head ++ (piece ++ ['\n'])) ++ rest := by
        rw [hcut]
        simp
      have hstarts := ofSource_line hcut' (.inr ⟨head ++ piece, by simp⟩)
      rw [hnext] at hstarts
      rw [if_pos hmore, hstarts, Text.byteLength_append, Text.byteLength_append]
      show Text.byteLength head + (Text.byteLength piece + (1 + 0)) - 1 = _
      omega
  have hslice := Text.slice_append head piece tail
  rw [← hcut] at hslice
  have hrange : ¬ (number = 0 ∨ (ofSource source).lineStarts.size < number) := by
    rw [ofSource_size]
    omega
  unfold line?
  rw [if_neg hrange]
  dsimp only
  rw [hstart, ofSource_source, hstop, hslice]
  rfl

end SourceMap

/-- Later places of a text come later by line and column. -/
theorem Text.place_lt {before d : List Char} (hd : d ≠ []) :
    Prod.Lex (· < ·) (· < ·) (newlines before + 1, 1 + (lineSoFar before).length)
      (newlines (before ++ d) + 1, 1 + (lineSoFar (before ++ d)).length) := by
  rw [newlines_append]
  by_cases hmem : '\n' ∈ d
  · have hpos : 0 < newlines d := List.count_pos_iff.2 hmem
    exact .left _ _ (by omega)
  · have hzero : newlines d = 0 := List.count_eq_zero_of_not_mem hmem
    have hlength : 0 < d.length := List.length_pos_of_ne_nil hd
    rw [hzero, lineSoFar_append hmem, List.length_append, Nat.add_zero]
    exact .right _ (by omega)

/-- A source map agrees with counting: the position of a place is the beginning moved over the text
before it, its column counts the characters since the last line feed, lines are the pieces between
line feeds without carriage returns at their ends, and no two places have the same line and column. -/
theorem source_map_counts (source : String)
    (hlines : Text.newlines source.toList < Position.lineBound - 1)
    (hlength : Text.byteLength source.toList < Position.offsetBound) :
    (∀ before after, source.toList = before ++ after →
      Position.start.advance before =
          .ok ((SourceMap.ofSource source).positionAt (Text.byteLength before)) ∧
        (SourceMap.ofSource source).columnAt (Text.byteLength before) =
          .ok (1 + (Text.lineSoFar before).length)) ∧
    (∀ number, 1 ≤ number → number ≤ Text.newlines source.toList + 1 →
      ∃ piece, (source.toList.splitOn '\n')[number - 1]? = some piece ∧
        (SourceMap.ofSource source).line? number = some (Text.dropEndWhile (· == '\r') piece)) ∧
    (∀ number, number = 0 ∨ Text.newlines source.toList + 1 < number →
      (SourceMap.ofSource source).line? number = none) ∧
    (∀ before after before' after', source.toList = before ++ after →
      source.toList = before' ++ after' → Text.byteLength before < Text.byteLength before' →
      ∃ column column',
        (SourceMap.ofSource source).columnAt (Text.byteLength before) = .ok column ∧
        (SourceMap.ofSource source).columnAt (Text.byteLength before') = .ok column' ∧
        Prod.Lex (· < ·) (· < ·)
          (((SourceMap.ofSource source).positionAt (Text.byteLength before)).line, column)
          (((SourceMap.ofSource source).positionAt (Text.byteLength before')).line, column')) := by
  refine ⟨?_, ?_, ?_, ?_⟩
  · intro before after htext
    have hcount : Text.newlines before ≤ Text.newlines source.toList := by
      rw [htext, Text.newlines_append]
      omega
    have hbytes : Text.byteLength before ≤ Text.byteLength source.toList := by
      rw [htext, Text.byteLength_append]
      omega
    have hmod : Text.newlines before % Position.lineBound = Text.newlines before :=
      Nat.mod_eq_of_lt (by omega)
    refine ⟨?_, SourceMap.columnAt_ofSource hlines htext⟩
    have hin : Position.start.offset + Text.byteLength before < Position.offsetBound ∧
        Position.start.line + Text.newlines before % Position.lineBound < Position.lineBound := by
      rw [hmod]
      exact ⟨by show 0 + _ < _; omega, by show 1 + _ < _; omega⟩
    rw [SourceMap.positionAt_ofSource hlines htext]
    unfold Position.advance
    rw [if_pos hin, hmod]
    show Except.ok (Position.mk (0 + _) (1 + _)) = _
    rw [Nat.zero_add, Nat.add_comm 1]
  · exact fun number => SourceMap.line?_ofSource_some
  · exact fun number => SourceMap.line?_ofSource_none
  · intro before after before' after' htext htext' hlt
    obtain ⟨d, hd, rfl⟩ := Text.prefix_of_byteLength_lt htext htext' hlt
    refine ⟨_, _, SourceMap.columnAt_ofSource hlines htext,
      SourceMap.columnAt_ofSource hlines htext', ?_⟩
    rw [SourceMap.positionAt_ofSource hlines htext, SourceMap.positionAt_ofSource hlines htext']
    exact Text.place_lt hd

/-- An accented letter is one column but two bytes, and the empty line has a place of its own. -/
theorem source_map_counts_sample :
    let source := "é\r\n\nx"
    let m := SourceMap.ofSource source
    Text.newlines source.toList < Position.lineBound - 1 ∧
    Text.byteLength source.toList < Position.offsetBound ∧
    Position.start.advance "é\r\n\n".toList = .ok (m.positionAt 5) ∧ m.columnAt 2 = .ok 2 ∧
    m.line? 1 = some ['é'] ∧ m.line? 2 = some [] ∧ m.line? 4 = none ∧
    ∃ column column', m.columnAt 2 = .ok column ∧ m.columnAt 5 = .ok column' ∧
      Prod.Lex (· < ·) (· < ·) ((m.positionAt 2).line, column) ((m.positionAt 5).line, column') := by
  intro source m
  have hlines : Text.newlines source.toList < Position.lineBound - 1 := by decide +kernel
  have hlength : Text.byteLength source.toList < Position.offsetBound := by decide +kernel
  obtain ⟨hplaces, hpieces, hnone, hordered⟩ := source_map_counts source hlines hlength
  have hafter := (hplaces "é\r\n\n".toList "x".toList (by decide)).1
  have hwithin := (hplaces "é".toList "\r\n\nx".toList (by decide)).2
  obtain ⟨first, hfirst, hline⟩ := hpieces 1 (by decide) (by decide)
  obtain rfl : ['é', '\r'] = first := Option.some.inj ((by decide +kernel : _ = _).symm.trans hfirst)
  obtain ⟨second, hsecond, hempty⟩ := hpieces 2 (by decide) (by decide)
  obtain rfl : [] = second := Option.some.inj ((by decide +kernel : _ = _).symm.trans hsecond)
  exact ⟨hlines, hlength, hafter, hwithin, hline, hempty, hnone 4 (.inr (by decide)),
    hordered "é".toList "\r\n\nx".toList "é\r\n\n".toList "x".toList (by decide) (by decide)
      (by decide)⟩

end HeaderLex
