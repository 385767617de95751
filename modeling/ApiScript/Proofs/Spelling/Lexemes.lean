import ApiScript.Proofs.Spelling.Written
import Mathlib.Data.List.Forall2

set_option autoImplicit false
set_option relaxedAutoImplicit false

/-!
The lexemes that marks stand for, wherever the tokens are. Items in brackets are told apart by their
lexemes alone: two lists that are written the same way have as many items, each written as the other
list's item in its place.
-/

namespace ApiScript.Mark

/-- Tokens of the lexemes, somewhere in a text, stand for the marks. -/
def SpelledBy (ms : List Mark) (ls : List Lexeme) : Prop :=
  ∃ ts rest, SpelledAll false ms ts rest ∧ ts.map (·.lexeme) = ls ∧ ∀ t ∈ ts, t.lexeme.Genuine

section Parts

variable {ms ns : List Mark} {m : Mark} {ls : List Lexeme}

theorem SpelledBy.genuine (h : SpelledBy ms ls) : ∀ l ∈ ls, l.Genuine := by
  obtain ⟨ts, rest, -, rfl, hgenuine⟩ := h
  exact List.forall_mem_map.2 hgenuine

theorem SpelledBy.nil (h : SpelledBy [] ls) : ls = [] := by
  obtain ⟨ts, rest, rfl, rfl, -⟩ := h
  rfl

theorem SpelledBy.split (h : SpelledBy (ms ++ ns) ls) : ∃ us vs, ls = us ++ vs ∧ SpelledBy ms us ∧
    SpelledBy ns vs := by
  obtain ⟨ts, rest, hspelled, rfl, hgenuine⟩ := h
  obtain ⟨us, vs, rfl, hus, hvs⟩ := spelledAll_append.1 hspelled
  obtain ⟨hleft, hright⟩ := List.forall_mem_append.1 hgenuine
  exact ⟨_, _, List.map_append, ⟨us, _, hus, rfl, hleft⟩, ⟨vs, _, hvs, rfl, hright⟩⟩

private theorem SpelledBy.cons (h : SpelledBy (m :: ms) ls) :
    ∃ us vs, ls = us ++ vs ∧ SpelledBy [m] us ∧ SpelledBy ms vs :=
  @SpelledBy.split [m] ms ls h

theorem SpelledBy.node {span : Span} (h : SpelledBy [.node span ms] ls) : SpelledBy ms ls := by
  obtain ⟨ts, rest, hspelled, hls, hgenuine⟩ := h
  rw [spelledAll_singleton, Spelled] at hspelled
  exact ⟨ts, rest, hspelled.2, hls, hgenuine⟩

theorem SpelledBy.lexeme {l : Lexeme} {follow : Follow}
    (h : SpelledBy (.lexeme l follow :: ms) ls) :
    ∃ rest, ls = l :: rest ∧ SpelledBy ms rest := by
  obtain ⟨us, vs, rfl, ⟨ts, _, hspelled, rfl, -⟩, hvs⟩ := h.cons
  rw [spelledAll_singleton, Spelled] at hspelled
  obtain ⟨t, rfl, rfl, -⟩ := hspelled
  exact ⟨vs, rfl, hvs⟩

private theorem SpelledBy.trailing {closer : Symbol} (h : SpelledBy [.trailing closer] ls) :
    ls = [.symbol closer] ∨ ls = [.symbol .comma, .symbol closer] := by
  obtain ⟨ts, rest, hspelled, rfl, -⟩ := h
  rwa [spelledAll_singleton, Spelled] at hspelled

theorem SpelledBy.seam {open_ : Bool} (h : SpelledBy (.seam open_ :: ms) ls) : SpelledBy ms ls := by
  obtain ⟨us, vs, rfl, ⟨ts, _, hspelled, rfl, -⟩, hvs⟩ := h.cons
  rw [spelledAll_singleton, Spelled] at hspelled
  obtain rfl := (hspelled.resolve_left Bool.false_ne_true).1
  exact hvs

end Parts

/-- An item does not go on with such lexemes: they begin with no colon and with no mark of a
range. -/
def Ends (rest : List Lexeme) : Prop :=
  ∀ l ∈ rest.head?, l ≠ .symbol .colon ∧ l ≠ .symbol .range ∧ l ≠ .symbol .rangeInclusive

/-- Where both marks stand for the front of the same lexemes, and neither goes on behind it, they
stand for the same front, and `P` holds. -/
def Agree (ms ns : List Mark) (P : Prop) : Prop :=
  ∀ ⦃us vs us' vs' : List Lexeme⦄, SpelledBy ms us → SpelledBy ns us' → us ++ vs = us' ++ vs' →
    Ends vs → Ends vs' →
    us = us' ∧ P

theorem Agree.imp {ms ns : List Mark} {P Q : Prop} (h : Agree ms ns P) (hPQ : P → Q) :
    Agree ms ns Q :=
  fun _ _ _ _ hus hus' hsame hvs hvs' => (h hus hus' hsame hvs hvs').imp_right hPQ

theorem Agree.node {span span' : Span} {ms ns : List Mark} {P : Prop} (h : Agree ms ns P) :
    Agree [.node span ms] [.node span' ns] P :=
  fun _ _ _ _ hus hus' => h hus.node hus'.node

def Opens (ms : List Mark) : Prop :=
  ∀ ⦃ls : List Lexeme⦄, SpelledBy ms ls → ∃ l rest, ls = l :: rest ∧ l ≠ .symbol .rightBracket ∧
    l ≠ .symbol .rightBrace

inductive Further (closer : Symbol) : List (List Mark) → List Lexeme → Prop
  | bare : Further closer [] [.symbol closer]
  | comma : Further closer [] [.symbol .comma, .symbol closer]
  | more {ms : List Mark} {mss : List (List Mark)} {us vs : List Lexeme} (hitem : SpelledBy ms us)
    (h : Further closer mss vs) : Further closer (ms :: mss) (.symbol .comma :: (us ++ vs))

section Lists

variable {α β : Type} {closer : Symbol} {mss : List (List Mark)} {us vs us' vs' : List Lexeme}

private theorem further_of_spelledBy
    (h : SpelledBy (mss.flatMap (symbol .comma :: ·) ++ [.trailing closer]) us) :
    Further closer mss us := by
  induction mss generalizing us with
  | nil =>
    rcases h.trailing with rfl | rfl
    · exact .bare
    · exact .comma
  | cons ms mss ih =>
    rw [List.flatMap_cons, List.append_assoc, List.cons_append] at h
    obtain ⟨rest, rfl, hrest⟩ := h.lexeme
    obtain ⟨us, vs, rfl, hus, hvs⟩ := hrest.split
    exact .more hus (ih hvs)

theorem SpelledBy.listed {opener : Symbol} (h : SpelledBy (Mark.listed opener closer true mss) us) :
    ∃ body, us = .symbol opener :: body ∧ Further closer mss (.symbol .comma :: body) := by
  cases mss with
  | nil =>
    obtain ⟨body, rfl, hbody⟩ := h.lexeme
    obtain ⟨rest, rfl, hrest⟩ := hbody.lexeme
    obtain rfl := hrest.nil
    exact ⟨_, rfl, .comma⟩
  | cons ms mss =>
    rw [Mark.listed, separated, List.cons_append, List.append_assoc] at h
    · obtain ⟨body, rfl, hbody⟩ := h.lexeme
      obtain ⟨us, vs, rfl, hus, hvs⟩ := hbody.split
      exact ⟨_, rfl, .more hus (further_of_spelledBy hvs)⟩
    · exact List.cons_ne_nil _ _

variable {as : List α} {bs : List β} {marks : α → List Mark} {marks' : β → List Mark}
    {R : α → β → Prop}

private theorem Further.ends (hcloser : closer = .rightBracket ∨ closer = .rightBrace)
    (h : Further closer mss us) (vs : List Lexeme) : Ends (us ++ vs) := by
  cases h <;>
  · rintro l ⟨⟩
    rcases hcloser with rfl | rfl <;> decide

private theorem Opens.not_closer {ms : List Mark} (hms : Opens ms)
    (hcloser : closer = .rightBracket ∨ closer = .rightBrace) (h : SpelledBy ms us)
    (hsame : us ++ vs = .symbol closer :: vs') : False := by
  obtain ⟨l, rest, rfl, hbracket, hbrace⟩ := hms h
  obtain rfl := (List.cons.inj hsame).1
  rcases hcloser with rfl | rfl
  · exact hbracket rfl
  · exact hbrace rfl

private theorem Further.agree (hcloser : closer = .rightBracket ∨ closer = .rightBrace)
    (hopens : ∀ a ∈ as, Opens (marks a)) (hopens' : ∀ b ∈ bs, Opens (marks' b))
    (hagree : ∀ a ∈ as, ∀ b ∈ bs, Agree (marks a) (marks' b) (R a b))
    (h : Further closer (as.map marks) us) (h' : Further closer (bs.map marks') us')
    (hsame : us ++ vs = us' ++ vs') : us = us' ∧ List.Forall₂ R as bs := by
  have hcomma : closer ≠ .comma := by rcases hcloser with rfl | rfl <;> decide
  induction as generalizing bs us us' with
  | nil =>
    cases bs with
    | nil =>
      refine ⟨?_, .nil⟩
      cases h <;> cases h' <;> first | rfl | simp [hcomma, hcomma.symm] at hsame
    | cons b bs =>
      cases h' with
      | more hitem h' =>
        cases h with
        | bare => simp [hcomma] at hsame
        | comma =>
          simp only [List.cons_append, List.nil_append, List.append_assoc, List.cons.injEq,
            true_and] at hsame
          exact ((hopens' b List.mem_cons_self).not_closer hcloser hitem hsame.symm).elim
  | cons a as ih =>
    cases h with
    | more hitem h =>
      cases bs with
      | nil =>
        cases h' with
        | bare => simp [hcomma.symm] at hsame
        | comma =>
          simp only [List.cons_append, List.nil_append, List.append_assoc, List.cons.injEq,
            true_and] at hsame
          exact ((hopens a List.mem_cons_self).not_closer hcloser hitem hsame).elim
      | cons b bs =>
        cases h' with
        | more hitem' h' =>
          simp only [List.cons_append, List.append_assoc, List.cons.injEq, true_and] at hsame
          obtain ⟨rfl, hR⟩ := hagree a List.mem_cons_self b List.mem_cons_self hitem hitem' hsame
            (h.ends hcloser _) (h'.ends hcloser _)
          obtain ⟨rfl, hRs⟩ :=
            ih (List.forall_mem_cons.1 hopens).2 (List.forall_mem_cons.1 hopens').2
            (fun a ha b hb =>
              hagree a (List.mem_cons_of_mem _ ha) b (List.mem_cons_of_mem _ hb)) h h'
            (List.append_cancel_left hsame)
          exact ⟨rfl, .cons hR hRs⟩

theorem agree_listed {opener : Symbol} (hcloser : closer = .rightBracket ∨ closer = .rightBrace)
    (hopens : ∀ a ∈ as, Opens (marks a)) (hopens' : ∀ b ∈ bs, Opens (marks' b))
    (hagree : ∀ a ∈ as, ∀ b ∈ bs, Agree (marks a) (marks' b) (R a b)) :
    Agree (Mark.listed opener closer true (as.map marks))
      (Mark.listed opener closer true (bs.map marks'))
      (List.Forall₂ R as bs) := by
  intro us vs us' vs' h h' hsame _ _
  obtain ⟨body, rfl, hbody⟩ := h.listed
  obtain ⟨body', rfl, hbody'⟩ := h'.listed
  have htail : body ++ vs = body' ++ vs' := (List.cons.inj hsame).2
  obtain ⟨hbodies, hR⟩ :=
    hbody.agree hcloser hopens hopens' hagree hbody' (congrArg (Lexeme.symbol .comma :: ·) htail)
  exact ⟨congrArg _ (List.cons.inj hbodies).2, hR⟩

end Lists

end ApiScript.Mark
