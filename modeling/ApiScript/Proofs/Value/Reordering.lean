import ApiScript.Proofs.Value.Parts

set_option autoImplicit false
set_option relaxedAutoImplicit false

/-!
Matching does not ask for the order of fields. A pattern and a value may have the fields of their
objects in any order, at whatever depth the objects are: each key is looked up by its name, and
where no object repeats a key, what is found is the same.
-/

namespace ApiScript

mutual

/-- The second value is the first one with the entries of objects in another order, at any depth. -/
inductive Value.Reordered : Value → Value → Prop
  | refl (v : Value) : Reordered v v
  | array {vs ws : List Value} (h : List.Forall₂ Reordered vs ws) :
    Reordered (.array vs) (.array ws)
  | object {xs ys zs : List (String × Value)} (h : List.Forall₂ EntryReordered xs ys)
    (order : ys.Perm zs) :
    Reordered (.object xs) (.object zs)

inductive Value.EntryReordered : String × Value → String × Value → Prop
  | intro (key : String) {v w : Value} (h : Reordered v w) : EntryReordered (key, v) (key, w)

end

mutual

/-- The second pattern is the first one with the fields of object patterns in another order, at any
depth. -/
inductive Pattern.Reordered : Pattern → Pattern → Prop
  | refl (p : Pattern) : Reordered p p
  | array (span : Span) {ps qs : List Pattern} (h : List.Forall₂ Reordered ps qs) :
    Reordered (.array span ps) (.array span qs)
  | object (span : Span) {fs gs hs : List FieldPattern} (h : List.Forall₂ FieldReordered fs gs)
    (order : gs.Perm hs) :
    Reordered (.object span fs) (.object span hs)

inductive Pattern.FieldReordered : FieldPattern → FieldPattern → Prop
  | key (key : Name) (span : Span) : FieldReordered ⟨key, none, span⟩ ⟨key, none, span⟩
  | intro (key : Name) (span : Span) {p q : Pattern} (h : Reordered p q) :
    FieldReordered ⟨key, some p, span⟩ ⟨key, some q, span⟩

end

namespace Value

section Entries

variable {xs ys : List (String × Value)}

private theorem EntryReordered.key_eq {x y : String × Value} (h : EntryReordered x y) :
    x.1 = y.1 := by
  cases h with
  | intro key _ => rfl

private theorem EntryReordered.refl (x : String × Value) : EntryReordered x x :=
  .intro x.1 (.refl x.2)

private theorem keys_of_reordered (h : List.Forall₂ EntryReordered xs ys) :
    xs.map Prod.fst = ys.map Prod.fst := by
  induction h with
  | nil => rfl
  | cons hentry _ ih => rw [List.map_cons, List.map_cons, hentry.key_eq, ih]

private theorem lookup_of_perm (key : String) (h : xs.Perm ys) (hkeys : (xs.map Prod.fst).Nodup) :
    xs.lookup key = ys.lookup key := by
  induction h with
  | nil => rfl
  | cons x _ ih =>
    rw [List.map_cons, List.nodup_cons] at hkeys
    rw [List.lookup_cons, List.lookup_cons, ih hkeys.2]
  | swap x y rest =>
    simp only [List.map_cons, List.nodup_cons, List.mem_cons, not_or] at hkeys
    rw [List.lookup_cons, List.lookup_cons, List.lookup_cons, List.lookup_cons]
    cases hx : key == x.1 with
    | false => rfl
    | true =>
      have hy : (key == y.1) = false := by
        rw [beq_eq_false_iff_ne, beq_iff_eq.1 hx]
        exact Ne.symm hkeys.1.1
      rw [hy]
  | trans hfirst _ ih₁ ih₂ =>
    exact (ih₁ hkeys).trans (ih₂ ((hfirst.map Prod.fst).nodup_iff.1 hkeys))

private theorem lookup_of_reordered (key : String) (h : List.Forall₂ EntryReordered xs ys) :
    Option.Rel Reordered (xs.lookup key) (ys.lookup key) := by
  induction h with
  | nil => exact .none
  | cons hentry _ ih =>
    cases hentry with
    | intro k hvalue =>
      rw [List.lookup_cons, List.lookup_cons]
      cases key == k with
      | false => exact ih
      | true => exact .some hvalue

end Entries

namespace Reordered

variable {v w : Value} {vs : List Value} {xs : List (String × Value)}

private theorem of_array (h : (Value.array vs).Reordered w) :
    ∃ ws, w = .array ws ∧ List.Forall₂ Reordered vs ws := by
  cases h with
  | refl => exact ⟨vs, rfl, List.forall₂_same.2 fun v _ => .refl v⟩
  | array h => exact ⟨_, rfl, h⟩

private theorem of_object (h : (Value.object xs).Reordered w) :
    ∃ ys zs, w = .object zs ∧ List.Forall₂ EntryReordered xs ys ∧ ys.Perm zs := by
  cases h with
  | refl => exact ⟨xs, xs, rfl, List.forall₂_same.2 fun x _ => .refl x, .refl xs⟩
  | object h order => exact ⟨_, _, rfl, h, order⟩

private theorem of_perm {ys : List (String × Value)} (order : xs.Perm ys) :
    (Value.object xs).Reordered (.object ys) :=
  .object (List.forall₂_same.2 fun x _ => .refl x) order

private theorem number? (h : v.Reordered w) : v.number? = w.number? := by
  cases h <;> rfl

end Reordered

private theorem equivalent_reordered {l : Literal} {u v w : Value} (hu : ofLiteral? l = some u)
    (h : v.Reordered w) :
    u.equivalent v = u.equivalent w := by
  have atom : (∀ vs, u.equivalent (.array vs) = false) ∧ ∀ xs,
      u.equivalent (.object xs) = false := by
    cases l with
    | string s =>
      obtain ⟨text, -, rfl⟩ := Option.map_eq_some_iff.1 hu
      exact ⟨fun _ => rfl, fun _ => rfl⟩
    | _ =>
      cases hu
      exact ⟨fun _ => rfl, fun _ => rfl⟩
  cases h with
  | refl => rfl
  | array h => rw [atom.1, atom.1]
  | object h order => rw [atom.2, atom.2]

end Value

private def FieldPattern.takes (f : FieldPattern) (entries : List (String × Value)) : Bool :=
  (entries.lookup f.key.text).any fun v => f.pattern.all (·.matches v)

namespace Pattern

private theorem matchesFields_eq_all (fields : List FieldPattern)
    (entries : List (String × Value)) :
    matchesFields fields entries = fields.all (·.takes entries) := by
  induction fields with
  | nil => rfl
  | cons f fields ih =>
    obtain ⟨key, pattern, span⟩ := f
    rw [matchesFields, ih, List.all_cons, FieldPattern.takes]
    cases entries.lookup key.text with
    | none => rfl
    | some v => cases pattern <;> rfl

private theorem Reordered.of_array {span : Span} {ps : List Pattern} {q : Pattern}
    (h : (Pattern.array span ps).Reordered q) :
    ∃ qs, q = .array span qs ∧ List.Forall₂ Reordered ps qs := by
  cases h with
  | refl => exact ⟨ps, rfl, List.forall₂_same.2 fun p _ => .refl p⟩
  | array _ h => exact ⟨_, rfl, h⟩

private theorem FieldReordered.refl (f : FieldPattern) : FieldReordered f f := by
  obtain ⟨key, pattern, span⟩ := f
  cases pattern with
  | none => exact .key key span
  | some p => exact .intro key span (.refl p)

private theorem Reordered.of_object {span : Span} {fs : List FieldPattern} {q : Pattern}
    (h : (Pattern.object span fs).Reordered q) :
    ∃ gs hs, q = .object span hs ∧ List.Forall₂ FieldReordered fs gs ∧ gs.Perm hs := by
  cases h with
  | refl => exact ⟨fs, fs, rfl, List.forall₂_same.2 fun f _ => .refl f, .refl fs⟩
  | object _ h order => exact ⟨_, _, rfl, h, order⟩

private theorem Reordered.of_perm {fs gs : List FieldPattern} (span : Span) (order : fs.Perm gs) :
    (Pattern.object span fs).Reordered (.object span gs) :=
  .object span (List.forall₂_same.2 fun f _ => .refl f) order

/-- The pattern matches values whatever the order of fields in it and in them. -/
private def Unordered (p : Pattern) : Prop :=
  ∀ ⦃q : Pattern⦄ ⦃v w : Value⦄, p.Reordered q → v.Reordered w → v.DistinctKeys →
    p.matches v = q.matches w

variable {ps qs : List Pattern} {fs gs hs : List FieldPattern}

private theorem matchesAll_reordered {vs ws : List Value} (hmatches : ∀ p ∈ ps, p.Unordered)
    (hps : List.Forall₂ Reordered ps qs)
    (hvs : List.Forall₂ Value.Reordered vs ws) (hkeys : ∀ v ∈ vs, v.DistinctKeys) :
    matchesAll ps vs = matchesAll qs ws := by
  induction hps generalizing vs ws with
  | nil => cases hvs <;> rfl
  | cons hp _ ih =>
    cases hvs with
    | nil => rfl
    | cons hv hvs =>
      obtain ⟨hfirst, hrest⟩ := List.forall_mem_cons.1 hmatches
      obtain ⟨hkey, hkeys⟩ := List.forall_mem_cons.1 hkeys
      rw [matchesAll, matchesAll, hfirst hp hv hkey, ih hrest hvs hkeys]

private theorem takes_reordered {f g : FieldPattern} {xs ys zs : List (String × Value)}
    (hmatches : ∀ p ∈ f.pattern, p.Unordered) (hf : FieldReordered f g)
    (hxs : List.Forall₂ Value.EntryReordered xs ys) (order : ys.Perm zs)
    (hkeys : (Value.object xs).DistinctKeys) :
    f.takes xs = g.takes zs := by
  have hys : (ys.map Prod.fst).Nodup := Value.keys_of_reordered hxs ▸ hkeys.nodup
  have hkey : f.key = g.key := by cases hf <;> rfl
  have hfound := Value.lookup_of_reordered f.key.text hxs
  rw [Value.lookup_of_perm _ order hys] at hfound
  rw [FieldPattern.takes, FieldPattern.takes, ← hkey]
  cases hx : xs.lookup f.key.text with
  | none =>
    rw [hx] at hfound
    cases hz : zs.lookup f.key.text with
    | none => rfl
    | some w =>
      rw [hz] at hfound
      cases hfound
  | some v =>
    obtain ⟨front, behind, hentries, -⟩ := List.lookup_eq_some_iff.1 hx
    have hvalue : v.DistinctKeys := hkeys.of_mem v (by simp [Value.parts, hentries])
    rw [hx] at hfound
    generalize zs.lookup f.key.text = found at hfound
    cases hfound with
    | some hv =>
      rw [Option.any_some, Option.any_some]
      cases hf with
      | key => rfl
      | intro key span hp => exact hmatches _ rfl hp hv hvalue

private theorem matchesFields_reordered {xs ys zs : List (String × Value)}
    (hmatches : ∀ f ∈ fs, ∀ p ∈ f.pattern, p.Unordered) (hfs : List.Forall₂ FieldReordered fs gs)
    (hfields : gs.Perm hs) (hxs : List.Forall₂ Value.EntryReordered xs ys) (order : ys.Perm zs)
    (hkeys : (Value.object xs).DistinctKeys) : matchesFields fs xs = matchesFields hs zs := by
  rw [matchesFields_eq_all, matchesFields_eq_all, ← hfields.all_eq]
  clear hfields
  induction hfs with
  | nil => rfl
  | cons hf _ ih =>
    obtain ⟨hfirst, hrest⟩ := List.forall_mem_cons.1 hmatches
    rw [List.all_cons, List.all_cons, takes_reordered hfirst hf hxs order hkeys, ih hrest]

/-- Where no object of the value repeats a key, neither the order of the fields of object patterns
nor that of the entries of objects, at any depth, changes whether the pattern matches the value. -/
theorem matches_reordered {p q : Pattern} {v w : Value} (hp : p.Reordered q) (hv : v.Reordered w)
    (hkeys : v.DistinctKeys) : p.matches v = q.matches w := by
  suffices hall : p.Unordered from hall hp hv hkeys
  clear hp hv hkeys
  -- What is in brackets is matched part by part, and no other pattern has parts.
  induction p using Pattern.induction with
  | name | wildcard =>
    intro q v w hp _ _
    cases hp
    rfl
  | literal l =>
    intro q v w hp hv _
    cases hp
    rw [Pattern.matches, Pattern.matches]
    cases hl : Value.ofLiteral? l with
    | none => rfl
    | some u => exact Value.equivalent_reordered hl hv
  | range span start stop inclusive =>
    intro q v w hp hv _
    cases hp
    rw [Pattern.matches, Pattern.matches, hv.number?]
  | array span ps ih =>
    intro q v w hp hv hkeys
    obtain ⟨qs, rfl, hps⟩ := hp.of_array
    cases v with
    | array vs =>
      obtain ⟨ws, rfl, hvs⟩ := hv.of_array
      rw [Pattern.matches, Pattern.matches]
      exact matchesAll_reordered ih hps hvs hkeys.of_mem
    | _ => cases hv <;> rfl
  | object span fs ih =>
    intro q v w hp hv hkeys
    obtain ⟨gs, hs, rfl, hfs, hfields⟩ := hp.of_object
    cases v with
    | object xs =>
      obtain ⟨ys, zs, rfl, hxs, order⟩ := hv.of_object
      rw [Pattern.matches, Pattern.matches]
      exact matchesFields_reordered ih hfs hfields hxs order hkeys
    | _ => cases hv <;> rfl

/-- An object in an array in an object, both objects and both of their patterns in another order. -/
theorem matches_reordered_of_nested :
    let field (text : String) (p : Option Pattern) : FieldPattern := ⟨⟨text, .point 0⟩, p, .point 0⟩
    let one : Pattern := .literal (.integer (.point 0) "1" 1)
    let inner (fields : List FieldPattern) : Pattern :=
      .array (.point 0) [.wildcard (.point 0), .object (.point 0) fields]
    let p : Pattern :=
      .object (.point 0) [field "a" (some (inner [field "x" none, field "y" (some one)])),
        field "b" none]
    let q : Pattern :=
      .object (.point 0)
        [field "b" none, field "a" (some (inner [field "y" (some one), field "x" none]))]
    let v : Value :=
      .object [("b", .null), ("c", .int 3),
        ("a", .array [.int 2, .object [("x", .null), ("y", .int 1)]])]
    let w : Value :=
      .object [("a", .array [.int 2, .object [("y", .int 1), ("x", .null)]]), ("b", .null),
        ("c", .int 3)]
    p.Reordered q ∧ v.Reordered w ∧ v.DistinctKeys ∧ p.matches v = true ∧
        p.matches v = q.matches w := by
  intro field one inner p q v w
  have hinner : (inner [field "x" none, field "y" (some one)]).Reordered
      (inner [field "y" (some one), field "x" none]) :=
    .array _ (.cons (.refl _) (.cons (.of_perm _ (.swap ..)) .nil))
  have hp : p.Reordered q := .object _ (.cons (.intro _ _ hinner) (.cons (.refl _) .nil)) (.swap ..)
  have hlist : (Value.array [.int 2, .object [("x", .null), ("y", .int 1)]]).Reordered
      (.array [.int 2, .object [("y", .int 1), ("x", .null)]]) :=
    .array (.cons (.refl _) (.cons (.of_perm (.swap ..)) .nil))
  have hv : v.Reordered w :=
    .object (.cons (.refl _) (.cons (.refl _) (.cons (.intro "a" hlist) .nil)))
      (.trans (.cons _ (.swap ..)) (.swap ..))
  have hleaf {u : Value} (hkeys : u.keys = []) (hparts : u.parts = []) : u.DistinctKeys :=
    .intro (hkeys ▸ .nil) (hparts ▸ List.forall_mem_nil _)
  have hobject : (Value.object [("x", .null), ("y", .int 1)]).DistinctKeys :=
    .intro (by decide)
      (List.forall_mem_cons.2 ⟨hleaf rfl rfl, List.forall_mem_singleton.2 (hleaf rfl rfl)⟩)
  have harray : (Value.array [.int 2, .object [("x", .null), ("y", .int 1)]]).DistinctKeys :=
    .intro .nil (List.forall_mem_cons.2 ⟨hleaf rfl rfl, List.forall_mem_singleton.2 hobject⟩)
  have hkeys : v.DistinctKeys := .intro (by decide)
    (List.forall_mem_cons.2
      ⟨hleaf rfl rfl, List.forall_mem_cons.2 ⟨hleaf rfl rfl, List.forall_mem_singleton.2 harray⟩⟩)
  exact ⟨hp, hv, hkeys, rfl, matches_reordered hp hv hkeys⟩

end Pattern

end ApiScript
