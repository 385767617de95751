import ApiScript.Value.Match
import Mathlib.Data.List.Forall2

set_option autoImplicit false
set_option relaxedAutoImplicit false

/-!
What values and the expressions that they are written as are made of, and patterns that match them
part by part.
-/

namespace ApiScript

namespace Value

def keys : Value → List String
  | object entries => entries.map Prod.fst
  | _ => []

def parts : Value → List Value
  | array vs => vs
  | object entries => entries.map Prod.snd
  | _ => []

inductive DistinctKeys : Value → Prop
  | intro {v : Value} (hkeys : v.keys.Nodup) (hparts : ∀ w ∈ v.parts, DistinctKeys w) :
    DistinctKeys v

namespace DistinctKeys

variable {v : Value}

theorem nodup (h : v.DistinctKeys) : v.keys.Nodup := by
  cases h with
  | intro hkeys _ => exact hkeys

theorem of_mem (h : v.DistinctKeys) : ∀ w ∈ v.parts, w.DistinctKeys := by
  cases h with
  | intro _ hparts => exact hparts

end DistinctKeys

section Parts

private theorem ofExprs?_cons {e : Expr} {es : List Expr} {vs : List Value}
    (h : ofExprs? (e :: es) = some vs) :
    ∃ v ws, vs = v :: ws ∧ ofExpr? e = some v ∧ ofExprs? es = some ws := by
  simp only [ofExprs?, Option.bind_eq_bind, Option.bind_eq_some_iff, Option.pure_def,
    Option.some.injEq] at h
  obtain ⟨v, hv, ws, hws, rfl⟩ := h
  exact ⟨v, ws, rfl, hv, hws⟩

private theorem ofFields?_cons {f : Field} {fields : List Field} {entries : List (String × Value)}
    (h : ofFields? (f :: fields) = some entries) : ∃ key v rest, entries = (key, v) :: rest ∧
    f.key.name? = some key ∧ ofExpr? f.value = some v ∧ ofFields? fields = some rest := by
  obtain ⟨key, value, span⟩ := f
  simp only [ofFields?, Option.bind_eq_bind, Option.bind_eq_some_iff, Option.pure_def,
    Option.some.injEq] at h
  obtain ⟨name, hname, v, hv, rest, hrest, rfl⟩ := h
  exact ⟨name, v, rest, rfl, hname, hv, hrest⟩

theorem exists_of_ofExprs? {es : List Expr} {vs : List Value} (h : ofExprs? es = some vs) :
    ∀ e ∈ es, ∃ v ∈ vs, ofExpr? e = some v := by
  induction es generalizing vs with
  | nil => nofun
  | cons e es ih =>
    obtain ⟨v, ws, rfl, hv, hws⟩ := ofExprs?_cons h
    refine List.forall_mem_cons.2 ⟨⟨v, List.mem_cons_self, hv⟩, fun e he => ?_⟩
    obtain ⟨w, hw, hvalue⟩ := ih hws e he
    exact ⟨w, List.mem_cons_of_mem _ hw, hvalue⟩

theorem exists_of_ofFields? {fields : List Field} {entries : List (String × Value)}
    (h : ofFields? fields = some entries) :
    ∀ f ∈ fields, ∃ v ∈ entries.map Prod.snd, ofExpr? f.value = some v := by
  induction fields generalizing entries with
  | nil => nofun
  | cons f fields ih =>
    obtain ⟨key, v, rest, rfl, -, hv, hrest⟩ := ofFields?_cons h
    refine List.forall_mem_cons.2 ⟨⟨v, List.mem_cons_self, hv⟩, fun f hf => ?_⟩
    obtain ⟨w, hw, hvalue⟩ := ih hrest f hf
    exact ⟨w, List.mem_cons_of_mem _ hw, hvalue⟩

theorem expr_induction {motive : Expr → Prop} (literal : ∀ l, motive (.literal l))
    (paren : ∀ span e, motive e → motive (.paren span e))
    (array : ∀ span es, (∀ e ∈ es, motive e) → motive (.array span es))
    (object : ∀ fields span, (∀ f ∈ fields, motive f.value) → motive (.object ⟨fields, span⟩))
    (none : ∀ e, ofExpr? e = none → motive e) (e : Expr) : motive e := by
  refine ofExpr?.induct motive (fun fields => ∀ f ∈ fields, motive f.value)
    (fun es => ∀ e ∈ es, motive e) literal paren
    array object (fun e h₁ h₂ h₃ h₄ => none e ?_) nofun
      (fun e es he hes => List.forall_mem_cons.2 ⟨he, hes⟩) nofun
    (fun key value span fields hvalue hfields => List.forall_mem_cons.2 ⟨hvalue, hfields⟩) e
  rw [ofExpr?.eq_def]
  split
  · exact (h₁ _ rfl).elim
  · exact (h₂ _ _ rfl).elim
  · exact (h₃ _ _ rfl).elim
  · exact (h₄ _ _ rfl).elim
  · rfl

end Parts

end Value

namespace Pattern

open Value

theorem induction {motive : Pattern → Prop} (name : ∀ n, motive (.name n))
    (wildcard : ∀ span, motive (.wildcard span)) (literal : ∀ l, motive (.literal l))
    (range : ∀ span start stop inclusive, motive (.range span start stop inclusive))
    (array : ∀ span ps, (∀ p ∈ ps, motive p) → motive (.array span ps))
    (object : ∀ span fields, (∀ f ∈ fields, ∀ p ∈ f.pattern, motive p) →
    motive (.object span fields)) (p : Pattern) : motive p := by
  refine bindings.induct motive (fun fields => ∀ f ∈ fields, ∀ p ∈ f.pattern, motive p)
    (fun ps => ∀ p ∈ ps, motive p)
    name array object wildcard literal range nofun
      (fun p ps hp hps => List.forall_mem_cons.2 ⟨hp, hps⟩) nofun
    (fun key span fields hfields => List.forall_mem_cons.2 ⟨nofun, hfields⟩)
    (fun key span fields q hq hfields => List.forall_mem_cons.2 ⟨?_, hfields⟩) p
  rintro _ ⟨⟩
  exact hq

theorem matchesAll_of_forall₂ {es : List Expr} {ps : List Pattern} {vs : List Value}
    (h : List.Forall₂ (fun e p => ∀ v, ofExpr? e = some v → p.matches v = true) es ps)
    (hvs : ofExprs? es = some vs) :
    matchesAll ps vs = true := by
  induction h generalizing vs with
  | nil =>
    cases hvs
    rfl
  | cons he _ ih =>
    obtain ⟨v, ws, rfl, hv, hws⟩ := ofExprs?_cons hvs
    rw [matchesAll, he v hv, ih hws]
    rfl

theorem matchesFields_of_forall₂ {fields : List Field} {ps : List FieldPattern}
    {entries : List (String × Value)} (h : List.Forall₂ (fun f p => f.key.name? = some p.key.text ∧
      ∀ q ∈ p.pattern, ∀ v, ofExpr? f.value = some v → q.matches v = true) fields ps)
    (hentries : ofFields? fields = some entries) (hkeys : (entries.map Prod.fst).Nodup) :
    matchesFields ps entries = true := by
  suffices hall :
      ∀ rest, ofFields? fields = some rest → (∀ x ∈ rest, entries.lookup x.1 = some x.2) →
        matchesFields ps entries = true by
    refine hall entries hentries fun x hx => ?_
    obtain ⟨front, behind, rfl⟩ := List.append_of_mem hx
    refine List.lookup_eq_some_iff.2 ⟨front, behind, rfl, fun y hy => bne_iff_ne.2 fun hsame => ?_⟩
    rw [List.map_append, List.map_cons] at hkeys
    exact (List.nodup_append.1 hkeys).2.2 y.1 (List.mem_map_of_mem hy) x.1 List.mem_cons_self
      hsame.symm
  clear hentries
  induction h with
  | nil => exact fun _ _ _ => rfl
  | @cons f p fields ps hf _ ih =>
    intro rest hrest hlookup
    obtain ⟨key, v, behind, rfl, hkey, hv, hbehind⟩ := ofFields?_cons hrest
    obtain ⟨hfound, hothers⟩ := List.forall_mem_cons.1 hlookup
    obtain ⟨pkey, pattern, span⟩ := p
    obtain rfl : pkey.text = key := Option.some.inj (hf.1.symm.trans hkey)
    rw [matchesFields, hfound, ih behind hbehind hothers, Bool.and_true]
    cases pattern with
    | none => rfl
    | some q => exact hf.2 q rfl v hv

end Pattern

end ApiScript
