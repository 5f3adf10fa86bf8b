import HeaderLex.Proofs.Acceptance
import HeaderLex.Proofs.ListForms
import Mathlib.Data.List.Basic

/-!
# Lists on any stream

A list is read from every stream that begins with one, and its elements are handed on in order.

* `Element.accepts`   the reader of an element takes it, in front of a mark of the list;
* `Items.rounds`      the turns over the elements;
* `Listing.accepts`   the whole list;
* `accepts_listElements`   the elements as a value.
-/

namespace HeaderLex.Grammar.ListForm

open HeaderLex.Operation HeaderLex.Parser

variable {υ : Type} {form : ListForm} {e ts us : List Token} {es : List (List Token)} {t s c : Token}
  {pending next : List Bracket}

/-! ## elements -/

theorem accepts_elementTurn (acc : List Token) (hcontent : t.isEnd = false)
    (hfree : pending = [] → form.delimits t = false) (hafter : Edge.after pending t.edges = some next) :
    Accepts (elementTurn form (acc, pending.map Bracket.closer) : Parser υ _) [t]
      (.inl (acc ++ [t], next.map Bracket.closer)) id fun _ => True := by
  refine .take (pure (.inl (acc ++ [t], next.map Bracket.closer))) ?_ (.pure _)
  rw [elementStep_inside acc hcontent hfree, nextClosers_of_after form hafter]
  rfl

theorem accepts_elementTurn_last (acc : List Token) :
    Accepts (elementTurn form (acc, []) : Parser υ _) [] (.inr acc) id
      fun t => form.delimits t = true := by
  refine .lookBehind fun t ht => ?_
  rw [elementStep_delimits acc ht]
  exact .pure _

theorem Passes.rounds (h : form.Passes pending e) (acc : List Token) :
    Rounds (elementTurn form : _ → Parser υ _) (fun t => form.delimits t = true)
      (acc, pending.map Bracket.closer) e (acc ++ e) id := by
  induction h generalizing acc with
  | nil =>
    rw [List.append_nil]
    exact .last (accepts_elementTurn_last acc)
  | @cons pending next t ts hcontent hfree hafter _ ih =>
    have hlater := ih (acc ++ [t])
    rw [List.append_assoc] at hlater
    exact .more (by simp) (accepts_elementTurn acc hcontent hfree hafter) hlater fun _ _ => trivial

/-- An element is read where a mark of the list follows. -/
theorem Element.accepts (h : form.Element e) :
    Accepts (listElement form : Parser υ (List Token)) e e id fun t => form.delimits t = true := by
  obtain ⟨hne, hpasses⟩ := element_iff.mp h
  have hloop : Accepts (loop (elementTurn form) ([], []) : Parser υ _) e e id
      fun t => form.delimits t = true := (hpasses.rounds []).loop h.content
  rw [listElement_eq]
  refine hloop.andPure ?_
  rw [if_neg (by simpa using hne)]
  exact .pure e

theorem Element.accepts_give (h : form.Element e) (give : υ → List Token → υ) :
    Accepts (element form give) e () (give · e) fun t => form.delimits t = true := by
  have hgive : Accepts (modifyUser (give · e)) [] () (give · e) fun t => form.delimits t = true :=
    (Accepts.modifyUser _).weaken fun _ _ => trivial
  have hboth : Accepts (element form give) (e ++ []) () (give · e) fun t => form.delimits t = true :=
    h.accepts.bind hgive fun _ hfit => hfit
  rwa [List.append_nil] at hboth

/-! ## what follows an element -/

theorem accepts_afterElement_closing (hc : c.isMark form.closing = true) :
    Accepts (afterElement form : Parser υ Bool) [c] true id fun _ => True :=
  (accepts_tryMark hc).andPure (.pure true)

/-- A separator is taken; what it means for the list is told by the token behind. -/
theorem accepts_separator (hform : form.closing ≠ form.separator) (hs : s.isMark form.separator = true)
    {last : Bool} {fits : Token → Prop}
    (h : Accepts (peek >>= fun t =>
      if t.isMark form.closing then
        if form.allowTrailing then consume >>= fun _ => pure true
        else unexpected "list element" t form.context
      else pure false : Parser υ Bool) us last id fits) :
    Accepts (afterElement form : Parser υ Bool) (s :: us) last id fits := by
  have hnot : s.isMark form.closing = false :=
    eq_false_of_ne_true fun hc => hform (Token.eq_of_isMark hc hs)
  refine (accepts_tryMark_none form.closing).bind ?_ fun _ _ => hnot
  refine .take _ ?_ h
  rw [hs]
  rfl

theorem accepts_afterElement_separator (hform : form.closing ≠ form.separator)
    (hs : s.isMark form.separator = true) :
    Accepts (afterElement form : Parser υ Bool) [s] false id fun t => t.isMark form.closing = false :=
  accepts_separator hform hs (.passBy false)

theorem accepts_afterElement_trailing (hform : form.closing ≠ form.separator)
    (hs : s.isMark form.separator = true) (htrailing : form.allowTrailing = true)
    (hc : c.isMark form.closing = true) :
    Accepts (afterElement form : Parser υ Bool) [s, c] true id fun _ => True := by
  refine accepts_separator hform hs (.take (pure true) ?_ (.pure true))
  rw [if_pos hc, if_pos htrailing]

/-! ## lists -/

theorem Element.accepts_turn (he : form.Element e) (give : υ → List Token → υ)
    (hd : form.delimits t = true) {last : Bool} {fits : Token → Prop}
    (h : Accepts (afterElement form : Parser υ Bool) (t :: ts) last id fits) :
    Accepts (itemsTurn form give ()) (e ++ t :: ts) (if last then .inr () else .inl ()) (give · e)
      fits := by
  have hturn : Accepts (listTurn form (element form give)) (e ++ t :: ts) last (id ∘ (give · e)) fits :=
    (he.accepts_give give).bind_give h fun _ _ => hd
  refine hturn.andPure ?_
  cases last <;> exact .pure _

theorem Items.rounds (hform : form.closing ≠ form.separator) (give : υ → List Token → υ)
    (h : form.Items es ts) :
    Rounds (itemsTurn form give) (fun _ => True) () ts () (es.foldl give) := by
  induction h with
  | last he hc =>
    exact .last (he.accepts_turn give (delimits_of_closing hc) (accepts_afterElement_closing hc))
  | trailing he hs htrailing hc =>
    exact .last (he.accepts_turn give (delimits_of_separator hs)
      (accepts_afterElement_trailing hform hs htrailing hc))
  | @more e s es ts he hs hitems ih =>
    obtain ⟨u, rest, rfl, hu⟩ := hitems.head
    have hturn := he.accepts_turn give (delimits_of_separator hs)
      (accepts_afterElement_separator hform hs)
    have hmore := Rounds.more (by simp) hturn ih fun _ _ => hu
    rwa [List.append_assoc] at hmore

theorem Items.content (h : form.Items es ts) : ∀ t ∈ ts, t.isEnd = false := by
  induction h with
  | last he hc => simpa [or_imp, forall_and, Token.isEnd_of_isMark hc] using he.content
  | trailing he hs _ hc =>
    simpa [or_imp, forall_and, Token.isEnd_of_isMark hs, Token.isEnd_of_isMark hc] using he.content
  | more he hs _ ih =>
    simpa [or_imp, forall_and, Token.isEnd_of_isMark hs] using And.intro he.content ih

/-- A list is read, whatever stands behind it, and its elements are handed on in order. -/
theorem Listing.accepts (hform : form.closing ≠ form.separator) (h : form.Listing es ts)
    (give : υ → List Token → υ) :
    Accepts (requireListTokens form fun e => modifyUser (give · e)) ts () (es.foldl give)
      fun _ => True := by
  rw [requireListTokens_eq]
  cases h with
  | empty ho hc =>
    refine (accepts_requireMark ho _).andThen ?_
    exact (accepts_tryMark hc).andPure (.pure ())
  | full ho hitems =>
    refine (accepts_requireMark ho _).andThen ?_
    obtain ⟨t, rest, rfl, ht⟩ := hitems.head
    refine (accepts_tryMark_none form.closing).bind ?_ fun _ _ => ht
    exact (hitems.rounds hform give).loop hitems.content

theorem accepts_listElements (hform : form.closing ≠ form.separator) (h : form.Listing es ts) :
    Accepts (listElements form : Parser υ _) ts es id fun _ => True := by
  have hlist := h.accepts hform fun (x : υ × List (List Token)) e => (x.1, x.2 ++ [e])
  have hlast : ∀ u : υ, es.foldl (fun x e => (x.1, x.2 ++ [e])) (u, []) = (id u, es) := by
    intro u
    rw [foldl_ledger fun u _ => u, List.foldl_fixed]
    rfl
  exact (hlist.withState hlast).andPure (.pure es)

end HeaderLex.Grammar.ListForm
