import HeaderLex.Proofs.BalancedGroups
import HeaderLex.Proofs.Collecting
import HeaderLex.Proofs.TokenLists

/-!
# Qualified names

A qualified name is read as far as it goes, and its tokens are those of the list that is given for it.
Where none begins or an error is met, the arena has the lists that it had before.

* `TemplateArguments`, `NameSegment`, `NameForm`   the tokens of a name;
* `collects_templateArguments`, `collects_nameSegment`, `collects_nameTokens`   what is taken and
  pushed;
* `tryQualifiedName_reads`   the whole routine, on an arena with the lists of its caller.
-/

namespace HeaderLex

open HeaderLex.Operation HeaderLex.Parser HeaderLex.Grammar

/-! ## names -/

/-- The arguments of a template: balanced angle brackets around tokens that may stand there. -/
inductive TemplateArguments : List Token → Prop
  | intro {o c : Token} {inner : List Token} : o.isMark '<' = true → Balanced ('<', '>') inner →
      (∀ t ∈ inner, endsTemplate t = false) → c.isMark '>' = true →
      TemplateArguments (o :: (inner ++ [c]))

/-- One segment of a name. -/
inductive NameSegment (templates : Bool) : List Token → Prop
  | plain {t : Token} : t.isIdentifier = true → NameSegment templates [t]
  | template {t : Token} {us : List Token} : t.isIdentifier = true → templates = true →
      TemplateArguments us → NameSegment templates (t :: us)

/-- Segments with scope operators between them. -/
inductive NameSegments (templates : Bool) : List Token → Prop
  | last {ts : List Token} : NameSegment templates ts → NameSegments templates ts
  | more {s : Token} {ts us : List Token} : NameSegment templates ts → s.isOperator "::" = true →
      NameSegments templates us → NameSegments templates (ts ++ s :: us)

/-- A qualified name, which may begin with a scope operator. -/
inductive NameForm (templates : Bool) : List Token → Prop
  | relative {ts : List Token} : NameSegments templates ts → NameForm templates ts
  | absolute {s : Token} {ts : List Token} : s.isOperator "::" = true → NameSegments templates ts →
      NameForm templates (s :: ts)

namespace Grammar

variable {υ : Type} {o : Bystanders} {z s : Stream} {ts : List Token} {t : Token}

/-! ## template arguments -/

/-- One token of a template argument list that `start` opened. -/
def templateTurn (start : Token) (depth : Nat) : Parser (υ × TokenList) (Nat ⊕ Unit) := do
  let t ← peek
  if endsTemplate t then
    refuse ⟨.mismatchedDelimiters "<" ">" (some "template argument list"), start.start⟩
  else
    consume
    pushToken t
    if t.isMark '<' then return .inl (depth + 1)
    else if t.isMark '>' then
      if depth = 0 then return .inr () else return .inl (depth - 1)
    else return .inl depth

theorem templateArguments_eq : (templateArguments : Parser (υ × TokenList) Unit) =
    next >>= fun start => pushToken start >>= fun _ => loop (templateTurn start) 0 := rfl

/-- The depth is kept as for any brackets. -/
theorem templateStep_eq (depth : Nat) (t : Token) :
    (if t.isMark '<' then return .inl (depth + 1)
      else if t.isMark '>' then
        if depth = 0 then return .inr () else return .inl (depth - 1)
      else return .inl depth : Parser (υ × TokenList) (Nat ⊕ Unit)) =
    match depthStep ('<', '>') depth t with
    | some d => pure (.inl d)
    | none => pure (.inr ()) := by
  unfold depthStep
  split
  · rfl
  · split
    · split <;> rfl
    · rfl

theorem widens_templateTurn (start : Token) (depth : Nat) :
    Widens (templateTurn start depth : Parser (υ × TokenList) (Nat ⊕ Unit)) := by
  refine compositional_widens.bind compositional_widens.peek fun t => ?_
  split
  · exact compositional_widens.refuse _
  · refine compositional_widens.bind compositional_widens.consume fun _ => ?_
    refine compositional_widens.bind (compositional_widens.pushToken t) fun _ => ?_
    rw [templateStep_eq]
    split <;> exact compositional_widens.pure _

/-- So many brackets are open after the tokens, all of which may stand in a template argument list. -/
def InTemplate (depth : Nat) (us : List Token) : Prop :=
  depthOf ('<', '>') us = some depth ∧ ∀ t ∈ us, endsTemplate t = false

theorem isEnd_of_endsTemplate (h : endsTemplate t = false) : t.isEnd = false := by
  unfold endsTemplate at h
  rw [Bool.or_eq_false_iff, Bool.or_eq_false_iff] at h
  exact h.1.1

/-- Inside a template argument list the brackets are counted, and the list ends where the first one is
closed. -/
theorem collects_templateTurn (start : Token) {depth : Nat} {us : List Token} (hz : z.StandsAt s)
    (h : InTemplate depth us) :
    Collects o z s ts (templateTurn start depth : Parser (υ × TokenList) _)
      (Collects.AfterTurn InTemplate (fun _ us _ => ∃ inner c, us = inner ++ [c] ∧
        Balanced ('<', '>') inner ∧ (∀ t ∈ inner, endsTemplate t = false) ∧
          c.isMark '>' = true) us) := by
  obtain ⟨hdepth, hinside⟩ := h
  refine Collects.look hz fun t ht => ?_
  split
  · exact .of_refuses fun _ _ => .refuse _
  · next hends =>
    have hplain := eq_false_of_ne_true hends
    have hinside' : ∀ u ∈ us ++ [t], endsTemplate u = false := by
      simpa [or_imp, forall_and, hplain] using hinside
    rw [templateStep_eq]
    cases hstep : depthStep ('<', '>') depth t with
    | some d =>
      have hdepth' : depthOf ('<', '>') (us ++ [t]) = some d := by
        rw [depthOf_snoc, hdepth]
        exact hstep
      refine .consume ht (compositional_widens.pure _) (.pure (.refl _) ?_)
      exact ⟨by simp, by simpa using isEnd_of_endsTemplate hplain, hdepth', hinside'⟩
    | none =>
      obtain ⟨rfl, hclose⟩ := depthStep_eq_none hstep
      refine .consume ht (compositional_widens.pure _) (.pure (.refl _) ?_)
      exact ⟨us, t, rfl, (balanced_iff_depthOf (by decide)).mpr hdepth, hinside, hclose⟩

theorem collects_templateArguments (hsound : s.Sound) (hz : z.StandsAt s) (ht : s.peek.result = .ok t)
    (hopen : t.isMark '<' = true) :
    Collects o z s ts (templateArguments : Parser (υ × TokenList) Unit)
      fun _ us _ => TemplateArguments us := by
  rw [templateArguments_eq]
  have hloop := compositional_widens.loop (widens_templateTurn (υ := υ) t) 0
  refine Collects.next hz ht hloop ?_
  refine Collects.weaken (.loop hsound.peek.consume (.refl _) (widens_templateTurn t) InTemplate
    ⟨rfl, by simp⟩ fun depth us s' z' _ hz' hinv => collects_templateTurn t hz' hinv) ?_
  rintro _ us s' _ ⟨inner, c, rfl, hinner, hinside, hc⟩
  exact .intro hopen hinner hinside hc

/-! ## segments -/

/-- What follows a segment: true at the end of the name. -/
def segmentEnd : Parser (υ × TokenList) Bool := do
  let t ← peek
  if t.isOperator "::" then
    consume
    pushToken t
    return false
  else return true

theorem nameSegment_eq (templates : Bool) : (nameSegment templates : Parser (υ × TokenList) Bool) =
    requireIf Token.isIdentifier "identifier" (some "qualified identifier") >>= fun t =>
      pushToken t >>= fun _ =>
        if templates then
          peek >>= fun t =>
            if t.isMark '<' then templateArguments >>= fun _ => segmentEnd else segmentEnd
        else segmentEnd := rfl

theorem widens_segmentEnd : Widens (segmentEnd : Parser (υ × TokenList) Bool) :=
  compositional_widens.segmentEnd

/-- No scope operator stands at the place. -/
def NoScope (s : Stream) : Prop := ∃ t, s.peek.result = .ok t ∧ t.isOperator "::" = false

/-- What was taken behind a segment, at the end of the name or before it goes on. -/
def EndTaken : Bool → List Token → Stream → Prop
  | true, us, s => us = [] ∧ NoScope s
  | false, us, _ => ∃ t, us = [t] ∧ t.isOperator "::" = true

/-- What was taken as a segment, with the scope operator behind it if there is one. -/
def SegmentTaken (templates : Bool) : Bool → List Token → Stream → Prop
  | true, us, s => NameSegment templates us ∧ NoScope s
  | false, us, _ => ∃ segment t, us = segment ++ [t] ∧ NameSegment templates segment ∧
      t.isOperator "::" = true

theorem EndTaken.behind {templates last : Bool} {us segment : List Token} (h : EndTaken last us s)
    (hsegment : NameSegment templates segment) : SegmentTaken templates last (segment ++ us) s := by
  cases last with
  | true =>
    obtain ⟨rfl, hscope⟩ := h
    exact ⟨by rwa [List.append_nil], hscope⟩
  | false =>
    obtain ⟨t, rfl, ht⟩ := h
    exact ⟨segment, t, rfl, hsegment, ht⟩

theorem collects_segmentEnd (hz : z.StandsAt s) :
    Collects o z s ts (segmentEnd : Parser (υ × TokenList) Bool) EndTaken := by
  refine .look hz fun t ht => ?_
  split
  · next hscope => exact .consume ht (compositional_widens.pure _) (.pure (.refl _) ⟨t, rfl, hscope⟩)
  · next hscope => exact .pure (.looked ht) ⟨rfl, t, ht, eq_false_of_ne_true hscope⟩

theorem collects_nameSegment (templates : Bool) (hsound : s.Sound) (hz : z.StandsAt s) :
    Collects o z s ts (nameSegment templates : Parser (υ × TokenList) Bool)
      (SegmentTaken templates) := by
  rw [nameSegment_eq]
  have harguments := compositional_widens.bind (compositional_widens.templateArguments (υ := υ))
    fun _ => widens_segmentEnd
  refine .require hz ?_ fun t ht hname => ?_
  · split
    · refine compositional_widens.bind compositional_widens.peek fun t => ?_
      split
      · exact harguments
      · exact widens_segmentEnd
    · exact widens_segmentEnd
  · have hplain : NameSegment templates [t] := .plain hname
    split
    · next htemplates =>
      refine .look (.refl _) fun u hu => ?_
      split
      · next hopen =>
        refine (collects_templateArguments hsound.peek.consume (.looked hu) hu hopen).bind
          (fun _ => widens_segmentEnd) fun _ us s' z' _ hz' harguments => ?_
        exact (collects_segmentEnd hz').weaken fun last vs s'' _ h =>
          h.behind (.template hname htemplates harguments)
      · exact (collects_segmentEnd (.looked hu)).weaken fun last vs s'' _ h => h.behind hplain
    · exact (collects_segmentEnd (.refl _)).weaken fun last vs s'' _ h => h.behind hplain

/-! ## names -/

def nameTurn (templates : Bool) (_ : Unit) : Parser (υ × TokenList) (Unit ⊕ Unit) := do
  if ← nameSegment templates then return .inr () else return .inl ()

theorem nameTokens_eq (templates : Bool) : (nameTokens templates : Parser (υ × TokenList) Unit) =
    peek >>= fun t =>
      if t.isOperator "::" then
        consume >>= fun _ => pushToken t >>= fun _ => loop (nameTurn templates) ()
      else loop (nameTurn templates) () := rfl

theorem widens_nameTurn (templates : Bool) (u : Unit) :
    Widens (nameTurn templates u : Parser (υ × TokenList) (Unit ⊕ Unit)) := by
  refine compositional_widens.bind (compositional_widens.nameSegment templates) fun last => ?_
  split <;> exact compositional_widens.pure _

theorem content_of_segment {templates : Bool} {us : List Token} (h : NameSegment templates us) :
    us ≠ [] ∧ ∀ t ∈ us, t.isEnd = false := by
  cases h with
  | plain ht => exact ⟨by simp, by simpa using Token.isEnd_of_isIdentifier ht⟩
  | template ht _ harguments =>
    obtain ⟨ho, -, hinner, hc⟩ := harguments
    refine ⟨by simp, ?_⟩
    simpa [or_imp, forall_and, Token.isEnd_of_isIdentifier ht, Token.isEnd_of_isMark ho,
      Token.isEnd_of_isMark hc] using fun t ht => isEnd_of_endsTemplate (hinner t ht)

/-- The segments so far are the beginning of a row of them. -/
def Unfinished (templates : Bool) (_ : Unit) (us : List Token) : Prop :=
  ∀ vs, NameSegments templates vs → NameSegments templates (us ++ vs)

theorem collects_segments (templates : Bool) (hsound : s.Sound) (hz : z.StandsAt s) :
    Collects o z s ts (loop (nameTurn templates) () : Parser (υ × TokenList) Unit)
      fun _ us s' => NameSegments templates us ∧ NoScope s' := by
  refine .loop hsound hz (widens_nameTurn templates) (Unfinished templates) (fun vs hvs => hvs) ?_
  intro _ us s' z' htakes hz' hinv
  refine (collects_nameSegment templates (hsound.takes htakes) hz').bind
    (fun last => by split <;> exact compositional_widens.pure _) ?_
  rintro (_ | _) vs s'' z'' _ hz'' htaken
  · obtain ⟨segment, t, rfl, hsegment, hscope⟩ := htaken
    obtain ⟨-, hcontent⟩ := content_of_segment hsegment
    refine .pure hz'' ⟨by simp, ?_, fun ws hws => ?_⟩
    · simpa [or_imp, forall_and, Token.isEnd_of_isOperator hscope] using hcontent
    · have hmore := hinv _ (.more hsegment hscope hws)
      simpa using hmore
  · obtain ⟨hsegment, hscope⟩ := htaken
    refine .pure hz'' ⟨?_, hscope⟩
    rw [List.append_nil]
    exact hinv vs (.last hsegment)

theorem collects_nameTokens (templates : Bool) (hsound : s.Sound) (hz : z.StandsAt s) :
    Collects o z s ts (nameTokens templates : Parser (υ × TokenList) Unit)
      fun _ us s' => NameForm templates us ∧ NoScope s' := by
  rw [nameTokens_eq]
  have hloop := compositional_widens.loop (widens_nameTurn (υ := υ) templates) ()
  refine .look hz fun t ht => ?_
  split
  · next hscope =>
    refine .consume ht hloop ?_
    exact (collects_segments templates hsound.peek.consume (.refl _)).weaken
      fun _ us s' _ h => ⟨.absolute hscope h.1, h.2⟩
  · exact (collects_segments templates hsound (.looked ht)).weaken
      fun _ us s' _ h => ⟨.relative h.1, h.2⟩

/-! ## the routine -/

/-- What becomes of the list when its tokens were collected. -/
def settleName : Except SourceError Unit × TokenList → Parser υ (Option TokenList)
  | (.ok (), list) => return some list
  | (.error e, list) => do
    onArena (·.release list)
    rethrow e

/-- A token that a qualified name begins with. -/
def beginsName (t : Token) : Bool := t.isIdentifier || t.isOperator "::"

/-- A name that begins with the token, which was looked at. -/
def nameFrom (templates : Bool) (t : Token) : Parser υ (Option TokenList) :=
  if beginsName t then collecting TokenList.empty (nameTokens templates) >>= settleName else pure none

theorem tryQualifiedName_eq (templates : Bool) :
    (tryQualifiedName templates : Parser υ (Option TokenList)) = peek >>= nameFrom templates := rfl

theorem widens_settleName (r : Except SourceError Unit × TokenList) :
    Widens (settleName r : Parser υ (Option TokenList)) := by
  obtain ⟨_ | _, list⟩ := r
  · intro x
    refine Nat.le_trans (Nat.le_of_eq ?_) (size_le_bind _ (fun _ _ => Nat.le_refl _) x)
    exact (x.arena.size_releaseChain _ list.head).symm
  · exact compositional_widens.pure _

theorem settleName_error {arena a : Arena} {list : TokenList} (h : arena.release list = .ok () a)
    (e : SourceError) (z : Stream) (user : υ) :
    settleName (.error e, list) ⟨z, arena, user⟩ = .fail (.source e) ⟨z, a, user⟩ := by
  have hrelease : (onArena (·.release list) : Parser υ Unit) ⟨z, arena, user⟩ = .ok () ⟨z, a, user⟩ := by
    show (arena.release list).mapState _ = _
    rw [h]
    rfl
  exact bind_ok hrelease

/-- An error of the source is a result for the caller. -/
theorem collecting_ends {β α : Type} {init : β} {p : Parser (υ × β) α} {x : Session υ}
    {r : Except SourceError α} {y : Session (υ × β)}
    (h : p.attempt.Ends ⟨x.stream, x.arena, (x.user, init)⟩ r y) :
    (collecting init p).Ends x (r, y.user.2) ⟨y.stream, y.arena, y.user.1⟩ := by
  obtain ⟨hresult, rfl⟩ := h
  refine ⟨?_, rfl⟩
  show Except.map _ (p.attempt _).result = _
  rw [hresult]
  rfl

/-- How the routine may end, beside other lists. -/
inductive NameOutcome (o : Bystanders) (templates : Bool) (x : Session υ) :
    Except Failure (Option TokenList) → Session υ → Prop
  | absent {t : Token} : x.stream.peek.result = .ok t → beginsName t = false →
      NameOutcome o templates x (.ok none) { x with stream := x.stream.peek.state }
  | read {t : Token} {ts : List Token} {z s : Stream} {a : Arena} {list : TokenList} :
      x.stream.peek.result = .ok t → beginsName t = true → x.stream.Takes ts s → z.StandsAt s →
      NoScope s → NameForm templates ts → o.Beside a list ts →
      NameOutcome o templates x (.ok (some list)) ⟨z, a, x.user⟩
  | refused {e : SourceError} {z : Stream} {a : Arena} :
      (∀ t, x.stream.peek.result = .ok t → beginsName t = true) → a.Partition o.nodes → o.Kept a →
      NameOutcome o templates x (.error (.source e)) ⟨z, a, x.user⟩

/-- Where a name begins, it is read or its nodes are given back. -/
theorem nameFrom_outcome (templates : Bool) (x : Session υ) (hsound : x.stream.Sound)
    (hpeek : x.stream.peek.result = .ok t) (hbegins : beginsName t = true)
    (hparts : x.arena.Partition o.nodes) (hkept : o.Kept x.arena) :
    let r := nameFrom templates t { x with stream := x.stream.peek.state }
    r.state.arena.nodes.size < UInt32.size → NameOutcome o templates x r.result r.state := by
  intro r hsize
  let y : Session (υ × TokenList) := ⟨x.stream.peek.state, x.arena, (x.user, TokenList.empty)⟩
  have hempty : o.Beside y.arena y.user.2 [] := ⟨[], .empty, hparts, hkept⟩
  have hrun : r = (collecting TokenList.empty (nameTokens templates) >>= settleName)
      { x with stream := x.stream.peek.state } := by
    show nameFrom templates t _ = _
    rw [nameFrom, if_pos hbegins]
  have hroom : (nameTokens templates y).state.arena.nodes.size < UInt32.size := by
    refine Nat.lt_of_le_of_lt ?_ hsize
    rw [hrun]
    exact size_le_bind (collecting TokenList.empty (nameTokens templates)) widens_settleName
      { x with stream := x.stream.peek.state }
  obtain ⟨huser, ⟨_, ts, s, hresult, htakes, hstands, hgrown, hform, hscope⟩ |
      ⟨e, ts, hresult, hgrown⟩⟩ :=
    collects_nameTokens templates hsound (.looked hpeek) y rfl hempty hroom
  · have hends := collecting_ends (x := { x with stream := x.stream.peek.state })
      (Ends.attempt ⟨hresult, rfl⟩)
    rw [huser] at hends
    obtain ⟨hfinal, hstate⟩ := hends.bind (f := settleName)
    rw [hrun, hfinal, hstate]
    exact .read hpeek hbegins htakes hstands hscope hform hgrown
  · have hends := collecting_ends (x := { x with stream := x.stream.peek.state }) (attempt_fails hresult)
    rw [huser] at hends
    obtain ⟨hfinal, hstate⟩ := hends.bind (f := settleName)
    obtain ⟨a, hrelease, hparts', hkept'⟩ := hgrown.release
    rw [settleName_error hrelease] at hfinal hstate
    rw [hrun, hfinal, hstate]
    refine .refused (fun u hu => ?_) hparts' hkept'
    obtain rfl : t = u := Except.ok.inj (hpeek.symm.trans hu)
    exact hbegins

/-- With other lists in the arena the routine finds no name, reads one, or gives its nodes back. -/
theorem tryQualifiedName_outcome (templates : Bool) (x : Session υ) (hsound : x.stream.Sound)
    (hparts : x.arena.Partition o.nodes) (hkept : o.Kept x.arena)
    (hsize : (tryQualifiedName templates x).state.arena.nodes.size < UInt32.size) :
    NameOutcome o templates x (tryQualifiedName templates x).result
      (tryQualifiedName templates x).state := by
  rw [tryQualifiedName_eq] at hsize ⊢
  cases hpeek : x.stream.peek.result with
  | error f =>
    obtain ⟨e, z, hresult, hstate⟩ := (Refuses.peek hpeek).bind (nameFrom (υ := υ) templates)
    rw [hresult, hstate]
    refine .refused (fun t ht => ?_) hparts hkept
    cases hpeek.symm.trans ht
  | ok t =>
    have hlook : peek.Ends x t { x with stream := x.stream.peek.state } := ⟨hpeek, rfl⟩
    obtain ⟨hresult, hstate⟩ := hlook.bind (f := nameFrom templates)
    rw [hstate] at hsize
    rw [hresult, hstate]
    cases hbegins : beginsName t with
    | false =>
      rw [nameFrom, if_neg (by rw [hbegins]; decide)]
      exact .absent hpeek hbegins
    | true => exact nameFrom_outcome templates x hsound hpeek hbegins hparts hkept hsize

/-! ## the arena of the caller -/

/-- The nodes of all lists that the caller holds. -/
def bystandersOf (shelf : Shelf) (kept : List (Option Shelf.Kept)) : Bystanders :=
  ⟨shelf.arena, kept.flatMap Shelf.Kept.nodesOf⟩

section

variable {shelf : Shelf} {kept : List (Option Shelf.Kept)} {a : Arena}

/-- The lists of the caller stay sound in an arena where their nodes are what they were, beside more
lists. -/
theorem sound_beside (h : shelf.Sound kept) (more : List (Option Shelf.Kept))
    (hkept : (bystandersOf shelf kept).Kept a)
    (hmore : ∀ e, some e ∈ more → a.Holds e.handle e.nodes e.tokens)
    (hparts : a.Partition (more.flatMap Shelf.Kept.nodesOf ++ (bystandersOf shelf kept).nodes)) :
    Shelf.Sound ⟨a, shelf.lists ++ more.map (Option.map Shelf.Kept.handle)⟩ (kept ++ more) where
  lists := by rw [h.lists, List.map_append]
  holds e he := by
    rcases List.mem_append.mp he with he | he
    · exact (h.holds e he).frame fun k hk => hkept k (List.mem_flatMap.mpr ⟨some e, he, hk⟩)
    · exact hmore e he
  partition := by
    rw [List.flatMap_append]
    exact hparts.perm List.perm_append_comm

/-- The lists of the caller have the tokens that they had. -/
theorem tokens_beside (h : shelf.Sound kept) {more : List (Option Shelf.Kept)}
    {lists : List (Option TokenList)} (h' : Shelf.Sound ⟨a, lists⟩ (kept ++ more)) {i : Nat} {l : TokenList}
    (hl : shelf.list? i = some l) : (a.tokens l).result = (shelf.arena.tokens l).result := by
  obtain ⟨e, he, rfl⟩ := h.kept_of_list? hl
  have he' : (kept ++ more)[i]? = some (some e) := by
    rw [List.getElem?_append_left (List.getElem?_eq_some_iff.mp he).1, he]
  have hread := (h'.held he').tokens (h'.parted he')
  dsimp only at hread
  rw [hread, (h.held he).tokens (h.parted he)]
  rfl

end

/-- A qualified name is read if one begins at the next token, and else nothing is consumed.  The tokens
of the list that is given are those that were consumed, a whole name with no scope operator behind it;
the live nodes are as many more.  An error is one of the source, and leaves as many live nodes as there
were.  All other lists keep their tokens. -/
theorem tryQualifiedName_reads (templates : Bool) {shelf : Shelf} {kept : List (Option Shelf.Kept)}
    (h : shelf.Sound kept) (stream : Stream) (hsound : stream.Sound) (user : υ)
    (hsize : (tryQualifiedName templates ⟨stream, shelf.arena, user⟩).state.arena.nodes.size
      < UInt32.size) :
    let r := tryQualifiedName templates ⟨stream, shelf.arena, user⟩
    (r.result = .ok none ↔ ∃ t, stream.peek.result = .ok t ∧ t.isIdentifier = false ∧
      t.isOperator "::" = false) ∧
    (r.result = .ok none → r.state = ⟨stream.peek.state, shelf.arena, user⟩) ∧
    (∀ list, r.result = .ok (some list) → ∃ ts s t, stream.Takes ts s ∧ r.state.stream.StandsAt s ∧
      s.peek.result = .ok t ∧ t.isOperator "::" = false ∧ NameForm templates ts ∧
      r.state.arena.tokens list = .ok ts r.state.arena ∧ list.length = ts.length ∧
      r.state.arena.liveCount = shelf.arena.liveCount + list.length) ∧
    (∀ f, r.result = .error f → (∃ e, f = .source e) ∧
      r.state.arena.liveCount = shelf.arena.liveCount) ∧
    (∀ i l, shelf.list? i = some l → (r.state.arena.tokens l).result = (shelf.arena.tokens l).result) ∧
    r.state.user = user := by
  intro r
  have hkept : (bystandersOf shelf kept).Kept shelf.arena := fun _ _ => rfl
  have houtcome := tryQualifiedName_outcome templates ⟨stream, shelf.arena, user⟩ hsound h.partition
    hkept hsize
  change NameOutcome _ templates _ r.result r.state at houtcome
  generalize r.result = result at houtcome ⊢
  generalize r.state = state at houtcome ⊢
  -- a token at which no name begins is there in one case only
  have hbegun : (∀ t, stream.peek.result = .ok t → beginsName t = true) →
      ¬ ∃ t, stream.peek.result = .ok t ∧ t.isIdentifier = false ∧ t.isOperator "::" = false := by
    rintro hbegins ⟨t, ht, hname, hscope⟩
    have htrue := hbegins t ht
    rw [beginsName, hname, hscope] at htrue
    cases htrue
  cases houtcome with
  | @absent t ht hbegins =>
    obtain ⟨hname, hscope⟩ := Bool.or_eq_false_iff.mp hbegins
    exact ⟨⟨fun _ => ⟨t, ht, hname, hscope⟩, fun _ => rfl⟩, fun _ => rfl, nofun, nofun, fun _ _ _ => rfl,
      rfl⟩
  | @read t ts z s a list ht hbegins htakes hz hscope hform hgrown =>
    have hnot := hbegun fun u hu => by rwa [← Except.ok.inj (ht.symm.trans hu)]
    obtain ⟨ids, hholds, hparts, hkept'⟩ := hgrown
    have hshelf := sound_beside h [some ⟨list, ids, ts⟩] hkept'
      (fun e he => by obtain rfl := Option.some.inj (List.mem_singleton.mp he); exact hholds)
      (by simpa [Shelf.Kept.nodesOf] using hparts)
    refine ⟨⟨nofun, fun hnone => absurd hnone hnot⟩, nofun, ?_, nofun,
      fun i l hl => tokens_beside h hshelf hl, rfl⟩
    rintro list' ⟨⟩
    obtain ⟨u, hu, hscope'⟩ := hscope
    refine ⟨ts, s, u, htakes, hz, hu, hscope', hform, hholds.tokens hparts, hholds.length, ?_⟩
    rw [hparts.liveCount, h.partition.liveCount, List.length_append, hholds.length,
      hholds.chain.length_eq, Nat.add_comm]
    rfl
  | @refused e z a hbegins hparts hkept' =>
    have hshelf := sound_beside h [] hkept' (by simp) (by simpa using hparts)
    refine ⟨⟨nofun, fun hnone => absurd hnone (hbegun hbegins)⟩, nofun, nofun, ?_,
      fun i l hl => tokens_beside h hshelf hl, rfl⟩
    rintro f ⟨⟩
    exact ⟨⟨e, rfl⟩, hparts.liveCount.trans h.partition.liveCount.symm⟩

/-- A name with nested template arguments, read into an arena that has a list already. -/
theorem tryQualifiedName_sample :
    let word (text : String) : Token := ⟨.identifier, text, ⟨0, 1⟩, ⟨0, 1⟩⟩
    let mark (text : String) : Token := ⟨.symbol, text, ⟨0, 1⟩, ⟨0, 1⟩⟩
    let shelf := Shelf.fresh.run [.borrow, .push 0 (word "X")]
    let name := [mark "::", word "Outer", mark "::", word "Map", mark "<", word "A", mark ",", word "B",
      mark "<", word "C", mark ">", mark ">", mark "::", word "Inner"]
    let stream : Stream := .replay ⟨name ++ [mark "="], [], ⟨.endOfFile, "", ⟨0, 1⟩, ⟨0, 1⟩⟩⟩
    let r := tryQualifiedName true ⟨stream, shelf.arena, ()⟩
    (∃ kept, shelf.Sound kept) ∧ stream.Sound ∧ r.state.arena.nodes.size < UInt32.size ∧
      ∃ list ts s, r.result = .ok (some list) ∧ stream.Takes ts s ∧ NameForm true ts ∧
        r.state.arena.tokens list = .ok ts r.state.arena ∧ list.length = 14 ∧
        r.state.arena.liveCount = shelf.arena.liveCount + 14 := by
  intro word mark shelf name stream r
  have hless : (Shelf.fresh.run ([.borrow, .push 0 (word "X")] ++ [])).arena.nodes.size
      < UInt32.size := by decide +kernel
  obtain ⟨kept, hkept⟩ : ∃ kept, shelf.Sound kept := by
    obtain ⟨-, kept, hkept, -⟩ := Shelf.sound_run hless
    exact ⟨kept, hkept⟩
  have hread : r.result = .ok (some ⟨some ⟨1, 0⟩, some ⟨14, 0⟩, 14⟩) := by decide +kernel
  have hall := tryQualifiedName_reads true hkept stream rfl () (by decide +kernel)
  obtain ⟨ts, s, t, htakes, -, -, -, hform, htokens, -, hlive⟩ := hall.2.2.1 _ hread
  exact ⟨⟨kept, hkept⟩, rfl, by decide +kernel, _, ts, s, hread, htakes, hform, htokens, rfl, hlive⟩

end Grammar

end HeaderLex
