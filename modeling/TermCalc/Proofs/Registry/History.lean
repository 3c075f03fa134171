import Mathlib.Data.List.Nodup
import TermCalc.Proofs.Registry.Building

/-!
# The history of a registry

A registry is changed by calls, each of which is accepted or refused. What it holds after any
sequence of calls on a new registry is what the accepted ones gave back, in that order.

* `Change`, `Gain`: a call, and what an accepted one gives back. `Registry.perform` makes a call.
* `Registry.after`, `Registry.run`, `Registry.gains`: the registry behind calls, and their gains.
* `Registry.Sound`: the invariant. `Registry.Sound.perform` is the step, `Registry.traced_run` the
  whole history.
* `Registry.Records`: what listings and lookups say, by the gains alone.
* `Registry.Accepts`, `Change.Grants`, `Registry.Responds`: what becomes of further calls.
* `Registry.records_run`: **a registry records its history.**
-/

namespace TermCalc

/-- **A call that changes a registry.** -/
inductive Change where
  | register (name : String) (implementation : Option Implementation) (arity : Int) (flags : Flags)
      (maximum : Option Int)
  | synonym (existing new : String)
  | operator (fixity : Fixity) (precedence : Int) (name : String)
  | freeze

/-- What an accepted call gives back. -/
inductive Gain where
  | entry (e : Entry)
  | operator (op : Operator)
  | nothing

namespace Gain

/-- The entry that was gained, if one was. -/
def entry? : Gain → Option Entry
  | entry e => some e
  | _ => none

/-- The operator that was gained, if one was. -/
def operator? : Gain → Option Operator
  | operator op => some op
  | _ => none

end Gain

/-- **What a call asks for.** An alias asks for no more than its name; all else is that of the entry
that it repeats. -/
def Change.Grants : Change → Gain → Prop
  | .register name implementation arity flags maximum, .entry e =>
    e.name = name ∧ implementation = some e.implementation ∧ (e.arity : Int) = arity ∧
      e.flags = flags ∧ e.maximum.map Int.ofNat = maximum
  | .synonym _ new, .entry e => e.name = new
  | .operator fixity precedence name, .operator op =>
    op.fixity = fixity ∧ op.precedence = precedence ∧ op.name = name
  | .freeze, .nothing => True
  | _, _ => False

/-- **The order of operators in listings**: tightest first, then as declared. -/
def Operator.Precedes (a b : Operator) : Prop :=
  a.precedence < b.precedence ∨ a.precedence = b.precedence ∧ a.order < b.order

/-- A duplicate is kept where it occurs first. -/
theorem nodup_eraseDups {α : Type} [BEq α] [LawfulBEq α] (xs : List α) : xs.eraseDups.Nodup := by
  match xs with
  | [] => simp
  | x :: xs =>
    rw [List.eraseDups_cons, List.nodup_cons]
    refine ⟨?_, nodup_eraseDups _⟩
    simp [List.mem_eraseDups]
termination_by xs.length
decreasing_by
  have := List.length_filter_le (fun y => !y == x) xs
  simp only [List.length_cons]
  omega

namespace Registry

variable {r r' : Registry}

/-! ### Calls -/

/-- **Make a call**: the registry behind it and its gain, or why it is refused. -/
def perform (r : Registry) : Change → Except Failure (Registry × Gain)
  | .register name implementation arity flags maximum =>
    (r.register name implementation arity flags maximum).map fun (r', e) => (r', .entry e)
  | .synonym existing new => (r.registerAlias existing new).map fun (r', e) => (r', .entry e)
  | .operator fixity precedence name =>
    (r.declareOperator fixity precedence name).map fun (r', op) => (r', .operator op)
  | .freeze => .ok (r.freeze, .nothing)

/-- The registry behind a call. One that is refused leaves it as it was. -/
def after (r : Registry) (c : Change) : Registry :=
  match r.perform c with
  | .ok (r', _) => r'
  | .error _ => r

/-- **The registry behind calls.** -/
def run (r : Registry) (cs : List Change) : Registry := cs.foldl after r

/-- **The gains of calls**, in order. -/
def gains (r : Registry) : List Change → List Gain
  | [] => []
  | c :: cs =>
    match r.perform c with
    | .ok (r', g) => g :: r'.gains cs
    | .error _ => r.gains cs

theorem run_cons (r : Registry) (c : Change) (cs : List Change) :
    r.run (c :: cs) = (r.after c).run cs := rfl

theorem map_eq_ok {α β : Type} {x : Except Failure α} {f : α → β} {b : β} :
    x.map f = .ok b ↔ ∃ a, x = .ok a ∧ f a = b := by
  cases x <;> simp [Except.map]

/-- **What an accepted call does**: it adds an entry under a new name, or an operator that is new in
its position, to an open registry, or it freezes. -/
theorem perform_cases {c : Change} {g : Gain} (h : r.perform c = .ok (r', g)) :
    (∃ e, g = .entry e ∧ r.frozen = false ∧ r.contains e.name = false ∧
        (∀ m, e.maximum = some m → e.flags.variadic = true ∧ e.arity ≤ m) ∧
        r' = { r with entries := r.entries ++ [e] }) ∨
      (∃ op, g = .operator op ∧ r.frozen = false ∧ r.operator? op.fixity op.name = none ∧
        op.order = r.operators.length ∧ r' = { r with operators := r.operators ++ [op] }) ∨
      g = .nothing ∧ r' = r.freeze := by
  have hentry {name : String} {i : Option Implementation} {arity : Int} {flags : Flags}
      {maximum : Option Int} {e : Entry}
      (hr : r.register name i arity flags maximum = .ok (r', e)) :
      r.frozen = false ∧ r.contains e.name = false ∧
        (∀ m, e.maximum = some m → e.flags.variadic = true ∧ e.arity ≤ m) ∧
        r' = { r with entries := r.entries ++ [e] } := by
    obtain ⟨hfrozen, hnew, harity, hmax, i, -, rfl, rfl⟩ := register_eq_ok.1 hr
    refine ⟨hfrozen, hnew, ?_, rfl⟩
    intro m hm
    obtain ⟨z, hz, rfl⟩ := Option.map_eq_some_iff.1 hm
    obtain ⟨hle, hvariadic⟩ := hmax z hz
    exact ⟨hvariadic, by show arity.toNat ≤ z.toNat; omega⟩
  cases c with
  | register name i arity flags maximum =>
    obtain ⟨⟨r₁, e⟩, hr, heq⟩ := map_eq_ok.1 h
    cases heq
    exact .inl ⟨e, rfl, hentry hr⟩
  | synonym existing new =>
    obtain ⟨⟨r₁, e⟩, hr, heq⟩ := map_eq_ok.1 h
    cases heq
    obtain ⟨-, base, -, hr⟩ := registerAlias_eq_ok.1 hr
    exact .inl ⟨e, rfl, hentry hr⟩
  | operator fixity precedence name =>
    obtain ⟨⟨r₁, op⟩, hr, heq⟩ := map_eq_ok.1 h
    cases heq
    obtain ⟨hfrozen, hnew, rfl, rfl⟩ := declareOperator_eq_ok.1 hr
    exact .inr (.inl ⟨_, rfl, hfrozen, hnew, rfl, rfl⟩)
  | freeze =>
    cases h
    exact .inr (.inr ⟨rfl, rfl⟩)

/-- **An accepted call gives what it asks for.** -/
theorem grants_of_perform {c : Change} {g : Gain} (h : r.perform c = .ok (r', g)) : c.Grants g := by
  cases c with
  | register name i arity flags maximum =>
    obtain ⟨⟨r₁, e⟩, hr, heq⟩ := map_eq_ok.1 h
    cases heq
    obtain ⟨-, -, harity, hmax, i, rfl, rfl, -⟩ := register_eq_ok.1 hr
    refine ⟨rfl, rfl, Int.toNat_of_nonneg harity, rfl, ?_⟩
    cases maximum with
    | none => rfl
    | some m =>
      have hle := (hmax m rfl).1
      exact congrArg some (Int.toNat_of_nonneg (by omega))
  | synonym existing new =>
    obtain ⟨⟨r₁, e⟩, hr, heq⟩ := map_eq_ok.1 h
    cases heq
    obtain ⟨-, base, -, hr⟩ := registerAlias_eq_ok.1 hr
    obtain ⟨-, -, -, -, i, -, rfl, -⟩ := register_eq_ok.1 hr
    rfl
  | operator fixity precedence name =>
    obtain ⟨⟨r₁, op⟩, hr, heq⟩ := map_eq_ok.1 h
    cases heq
    obtain ⟨-, -, rfl, -⟩ := declareOperator_eq_ok.1 hr
    exact ⟨rfl, rfl, rfl⟩
  | freeze =>
    cases h
    trivial

/-- **A frozen registry stays as it is**, whatever is called. -/
theorem after_of_frozen (h : r.frozen = true) (c : Change) : r.after c = r := by
  unfold after
  cases hc : r.perform c with
  | error e => rfl
  | ok x =>
    obtain ⟨r', g⟩ := x
    rcases perform_cases hc with ⟨e, -, hopen, -⟩ | ⟨op, -, hopen, -⟩ | ⟨-, rfl⟩
    · rw [h] at hopen
      cases hopen
    · rw [h] at hopen
      cases hopen
    · show r.freeze = r
      rw [freeze, ← h]

theorem run_of_frozen (h : r.frozen = true) (cs : List Change) : r.run cs = r := by
  induction cs with
  | nil => rfl
  | cons c cs ih => rw [run_cons, after_of_frozen h, ih]

/-! ### Entries -/

theorem contains_eq_true_iff {name : String} :
    r.contains name = true ↔ ∃ e ∈ r.entries, e.name = name := by
  rw [contains, lookup, List.find?_isSome]
  simp

/-- **The entry of a name never changes.** -/
theorem lookup_after {name : String} {e : Entry} (h : r.lookup name = some e) (c : Change) :
    (r.after c).lookup name = some e := by
  unfold after
  cases hc : r.perform c with
  | error e => exact h
  | ok x =>
    obtain ⟨r', g⟩ := x
    rcases perform_cases hc with ⟨e', -, -, -, -, rfl⟩ | ⟨op, -, -, -, -, rfl⟩ | ⟨-, rfl⟩
    · show (r.entries ++ [e']).find? _ = some e
      rw [List.find?_append, show r.entries.find? _ = some e from h]
      rfl
    · exact h
    · exact h

theorem lookup_run {name : String} {e : Entry} (h : r.lookup name = some e) (cs : List Change) :
    (r.run cs).lookup name = some e := by
  induction cs generalizing r with
  | nil => exact h
  | cons c cs ih => exact ih (lookup_after h c)

/-- **An alias is the entry that it repeats**, under its own name. -/
theorem lookup_of_synonym {existing new : String} {x : Registry × Gain}
    (h : r.perform (.synonym existing new) = .ok x) :
    ∃ base, x.1.lookup existing = some base ∧ x.1.lookup new = some { base with name := new } := by
  obtain ⟨⟨r₁, e⟩, hr, heq⟩ := map_eq_ok.1 h
  cases heq
  obtain ⟨-, base, hbase, hr⟩ := registerAlias_eq_ok.1 hr
  obtain ⟨-, hnew, -, -, i, hi, rfl, rfl⟩ := register_eq_ok.1 hr
  cases hi
  refine ⟨base, ?_, ?_⟩
  · show (r.entries ++ [_]).find? _ = some base
    rw [List.find?_append, show r.entries.find? _ = some base from hbase]
    rfl
  · -- the new name was free, so that the entry found for it is the one added
    have hnone : r.entries.find? (·.name == new) = none := by
      rwa [contains, Option.isSome_eq_false_iff, Option.isNone_iff_eq_none] at hnew
    show (r.entries ++ [_]).find? _ = some _
    rw [List.find?_append, hnone]
    obtain ⟨_, _, _, _, maximum⟩ := base
    cases maximum <;> simp

/-! ### The invariant -/

/-- **What holds of every registry that calls have made.** -/
structure Sound (r : Registry) : Prop where
  /-- No name is taken twice. -/
  names_nodup : (r.entries.map (·.name)).Nodup
  bounds : ∀ e ∈ r.entries, ∀ m, e.maximum = some m → e.flags.variadic = true ∧ e.arity ≤ m
  /-- No spelling is declared twice in a position. -/
  spellings_nodup : (r.operators.map fun op => (op.fixity, op.name)).Nodup
  /-- Operators are numbered in order of declaration. -/
  numbered : r.operators.map (·.order) = List.range r.operators.length

theorem sound_empty : empty.Sound :=
  ⟨List.nodup_nil, fun _ h => absurd h List.not_mem_nil, List.nodup_nil, rfl⟩

/-- **An accepted call keeps the invariant.** -/
theorem Sound.perform (h : r.Sound) {c : Change} {g : Gain} (hc : r.perform c = .ok (r', g)) :
    r'.Sound := by
  rcases perform_cases hc with ⟨e, -, -, hnew, hbounds, rfl⟩ | ⟨op, -, -, hnew, horder, rfl⟩ |
    ⟨-, rfl⟩
  · refine ⟨?_, ?_, h.spellings_nodup, h.numbered⟩
    · have hfresh : ∀ e' ∈ r.entries, e'.name ≠ e.name := by
        intro e' he' hname
        have hcontains := contains_eq_true_iff.2 ⟨e', he', hname⟩
        rw [hnew] at hcontains
        cases hcontains
      rw [List.map_append, List.nodup_append]
      refine ⟨h.names_nodup, by simp, ?_⟩
      simpa using hfresh
    · intro e' he'
      rcases List.mem_append.1 he' with he' | he'
      · exact h.bounds e' he'
      · rw [List.mem_singleton.1 he']
        exact hbounds
  · refine ⟨h.names_nodup, h.bounds, ?_, ?_⟩
    · have hfresh : ∀ op' ∈ r.operators, (op'.fixity, op'.name) ≠ (op.fixity, op.name) := by
        intro op' hop' hspelling
        have hfind := List.find?_eq_none.1 hnew op' hop'
        obtain ⟨hfixity, hname⟩ := Prod.mk.inj hspelling
        simp [hfixity, hname] at hfind
      rw [List.map_append, List.nodup_append]
      refine ⟨h.spellings_nodup, by simp, ?_⟩
      simpa using hfresh
    · rw [List.map_append, h.numbered, List.length_append, List.length_singleton, List.range_succ,
        List.map_singleton, horder]
  · exact ⟨h.names_nodup, h.bounds, h.spellings_nodup, h.numbered⟩

/-- **A registry that calls have made**: the invariant holds, and it keeps the gains in order. -/
structure Traced (r : Registry) (gs : List Gain) : Prop where
  sound : r.Sound
  entries : r.entries = gs.filterMap Gain.entry?
  operators : r.operators = gs.filterMap Gain.operator?

/-- An accepted call adds its gain. -/
theorem Traced.perform {gs : List Gain} (h : r.Traced gs) {c : Change} {g : Gain}
    (hc : r.perform c = .ok (r', g)) : r'.Traced (gs ++ [g]) := by
  have hsound := h.sound.perform hc
  rcases perform_cases hc with ⟨e, rfl, -, -, -, rfl⟩ | ⟨op, rfl, -, -, -, rfl⟩ | ⟨rfl, rfl⟩
  · exact ⟨hsound, by simp [h.entries, Gain.entry?], by simp [h.operators, Gain.operator?]⟩
  · exact ⟨hsound, by simp [h.entries, Gain.entry?], by simp [h.operators, Gain.operator?]⟩
  · exact ⟨hsound, by simp [h.entries, Gain.entry?, freeze],
      by simp [h.operators, Gain.operator?, freeze]⟩

/-- **Calls add their gains** to those of the calls before. -/
theorem Traced.run {gs : List Gain} (h : r.Traced gs) (cs : List Change) :
    (r.run cs).Traced (gs ++ r.gains cs) := by
  induction cs generalizing r gs with
  | nil => simpa [Registry.run, gains] using h
  | cons c cs ih =>
    rw [run_cons]
    unfold gains after
    cases hc : r.perform c with
    -- a call that is refused changes nothing and gains nothing
    | error e => exact ih h
    | ok x =>
      obtain ⟨r', g⟩ := x
      have hrest := ih (h.perform hc)
      rwa [List.append_assoc] at hrest

theorem traced_run (cs : List Change) : (empty.run cs).Traced (empty.gains cs) := by
  have hempty : empty.Traced [] := ⟨sound_empty, rfl, rfl⟩
  exact hempty.run cs

/-! ### Listings and lookups -/

theorem lookup_of_mem (h : r.Sound) {e : Entry} (he : e ∈ r.entries) :
    r.lookup e.name = some e := by
  have hsome : (r.entries.find? (·.name == e.name)).isSome = true := by
    rw [List.find?_isSome]
    exact ⟨e, he, by simp⟩
  obtain ⟨e', he'⟩ := Option.isSome_iff_exists.1 hsome
  have hname : e'.name = e.name := by simpa using List.find?_some he'
  have hmem := List.mem_of_find?_eq_some he'
  rw [lookup, he', List.inj_on_of_nodup_map h.names_nodup hmem he hname]

theorem perm_operatorsOf (r : Registry) (fixity : Fixity) :
    (r.operatorsOf fixity).Perm (r.operators.filter (·.fixity == fixity)) :=
  List.mergeSort_perm _ _

theorem before_trans (a b c : Operator) (hab : a.before b = true) (hbc : b.before c = true) :
    a.before c = true := by
  simp only [Operator.before, Bool.or_eq_true, Bool.and_eq_true, decide_eq_true_eq,
    beq_iff_eq] at *
  omega

theorem before_total (a b : Operator) : (a.before b || b.before a) = true := by
  simp only [Operator.before, Bool.or_eq_true, Bool.and_eq_true, decide_eq_true_eq, beq_iff_eq]
  omega

/-- **Operators are listed in order.** -/
theorem Sound.pairwise_operatorsOf (h : r.Sound) (fixity : Fixity) :
    (r.operatorsOf fixity).Pairwise Operator.Precedes := by
  have hsorted := List.pairwise_mergeSort before_trans before_total
    (r.operators.filter (·.fixity == fixity))
  -- two operators of one order would be the same one
  have horders : ((r.operatorsOf fixity).map (·.order)).Nodup := by
    rw [((r.perm_operatorsOf fixity).map _).nodup_iff]
    refine List.Nodup.sublist (List.filter_sublist.map _) ?_
    rw [h.numbered]
    exact List.nodup_range
  have hdistinct := List.pairwise_map.1 horders
  refine (hsorted.and hdistinct).imp ?_
  intro a b hab
  obtain ⟨hbefore, hne⟩ := hab
  simp only [Operator.before, Bool.or_eq_true, Bool.and_eq_true, decide_eq_true_eq,
    beq_iff_eq] at hbefore
  rcases hbefore with hlt | ⟨heq, hle⟩
  · exact .inl hlt
  · exact .inr ⟨heq, by omega⟩

/-- An operator of a position is declared once under each name. -/
theorem Sound.nodup_operatorsOf (h : r.Sound) (fixity : Fixity) :
    ((r.operatorsOf fixity).map (·.name)).Nodup := by
  rw [((r.perm_operatorsOf fixity).map _).nodup_iff]
  have hspellings : ((r.operators.filter (·.fixity == fixity)).map
      fun op => (op.fixity, op.name)).Nodup :=
    List.Nodup.sublist (List.filter_sublist.map _) h.spellings_nodup
  have hmap : ((r.operators.filter (·.fixity == fixity)).map fun op => (op.fixity, op.name)) =
      ((r.operators.filter (·.fixity == fixity)).map (·.name)).map (fixity, ·) := by
    rw [List.map_map]
    refine List.map_congr_left ?_
    intro op hop
    have hfixity : op.fixity = fixity := by simpa using (List.mem_filter.1 hop).2
    simp [hfixity]
  rw [hmap] at hspellings
  exact hspellings.of_map _

theorem mem_operatorNames {name : String} :
    name ∈ r.operatorNames ↔ ∃ op ∈ r.operators, op.name = name := by
  rw [operatorNames, List.mem_eraseDups, List.mem_flatMap]
  constructor
  · rintro ⟨fixity, -, hname⟩
    obtain ⟨op, hop, rfl⟩ := List.mem_map.1 hname
    exact ⟨op, (List.mem_filter.1 hop).1, rfl⟩
  · rintro ⟨op, hop, rfl⟩
    refine ⟨op.fixity, by cases op.fixity <;> decide, ?_⟩
    exact List.mem_map.2 ⟨op, List.mem_filter.2 ⟨hop, by simp⟩, rfl⟩

/-- **What a registry says of the calls that made it**, by their gains. -/
structure Records (r : Registry) (registered : List Entry) (declared : List Operator) : Prop where
  /-- The names in order of registration. -/
  names_eq : r.names = registered.map (·.name)
  names_nodup : r.names.Nodup
  lookup_eq : ∀ e ∈ registered, r.lookup e.name = some e
  bounds : ∀ e ∈ registered, ∀ m, e.maximum = some m → e.flags.variadic = true ∧ e.arity ≤ m
  /-- The operators of a position are those declared for it. -/
  operators_perm : ∀ fixity, (r.operatorsOf fixity).Perm (declared.filter (·.fixity == fixity))
  operators_nodup : ∀ fixity, ((r.operatorsOf fixity).map (·.name)).Nodup
  operators_sorted : ∀ fixity, (r.operatorsOf fixity).Pairwise Operator.Precedes
  /-- Operators carry their place in the order of declaration. -/
  order_eq : declared.map (·.order) = List.range declared.length
  spellings_nodup : r.operatorNames.Nodup
  mem_spellings : ∀ name, name ∈ r.operatorNames ↔ ∃ op ∈ declared, op.name = name

theorem Traced.records {gs : List Gain} (h : r.Traced gs) :
    r.Records (gs.filterMap Gain.entry?) (gs.filterMap Gain.operator?) := by
  rw [← h.entries, ← h.operators]
  exact
    { names_eq := rfl
      names_nodup := h.sound.names_nodup
      lookup_eq := fun e he => lookup_of_mem h.sound he
      bounds := h.sound.bounds
      operators_perm := r.perm_operatorsOf
      operators_nodup := h.sound.nodup_operatorsOf
      operators_sorted := h.sound.pairwise_operatorsOf
      order_eq := h.sound.numbered
      spellings_nodup := nodup_eraseDups _
      mem_spellings := fun _ => mem_operatorNames }

/-! ### Further calls -/

/-- **When a call is accepted.** -/
def Accepts (r : Registry) : Change → Prop
  | .register name implementation arity flags maximum =>
    r.frozen = false ∧ name ∉ r.names ∧ implementation ≠ none ∧ 0 ≤ arity ∧
      ∀ m, maximum = some m → arity ≤ m ∧ flags.variadic = true
  | .synonym existing new => r.frozen = false ∧ existing ∈ r.names ∧ new ∉ r.names
  | .operator fixity _ name => r.frozen = false ∧ ∀ op ∈ r.operatorsOf fixity, op.name ≠ name
  | .freeze => True

theorem contains_eq_false_iff {name : String} : r.contains name = false ↔ name ∉ r.names := by
  rw [← Bool.not_eq_true, contains_eq_true_iff, names, List.mem_map]

theorem operator?_eq_none_iff {fixity : Fixity} {name : String} :
    r.operator? fixity name = none ↔ ∀ op ∈ r.operatorsOf fixity, op.name ≠ name := by
  have hmem (op : Operator) : op ∈ r.operatorsOf fixity ↔
      op ∈ r.operators ∧ op.fixity = fixity := by
    rw [(r.perm_operatorsOf fixity).mem_iff, List.mem_filter, beq_iff_eq]
  rw [operator?, List.find?_eq_none]
  constructor
  · intro h op hop hname
    obtain ⟨hop, hfixity⟩ := (hmem op).1 hop
    have hno := h op hop
    simp [hfixity, hname] at hno
  · intro h op hop hfound
    simp only [Bool.and_eq_true, beq_iff_eq] at hfound
    exact h op ((hmem op).2 ⟨hop, hfound.1⟩) hfound.2

/-- **A call is accepted exactly where it may be.** An alias has no bounds of its own to check:
those of the entry that it repeats are in order. -/
theorem Sound.accepts_iff (h : r.Sound) (c : Change) :
    (∃ x, r.perform c = .ok x) ↔ r.Accepts c := by
  have hmap {α : Type} {x : Except Failure (Registry × α)} {f : Registry × α → Registry × Gain} :
      (∃ y, x.map f = .ok y) ↔ ∃ y, x = .ok y := by
    cases x <;> simp [Except.map]
  cases c with
  | register name i arity flags maximum =>
    rw [Registry.perform, hmap, Prod.exists]
    simp only [register_eq_ok, Accepts, contains_eq_false_iff]
    constructor
    · rintro ⟨r', e, hopen, hnew, harity, hmax, i, rfl, -⟩
      exact ⟨hopen, hnew, by simp, harity, hmax⟩
    · rintro ⟨hopen, hnew, hcallable, harity, hmax⟩
      obtain ⟨i, rfl⟩ := Option.ne_none_iff_exists'.1 hcallable
      exact ⟨_, _, hopen, hnew, harity, hmax, i, rfl, rfl, rfl⟩
  | synonym existing new =>
    rw [Registry.perform, hmap, Prod.exists]
    simp only [registerAlias_eq_ok, register_eq_ok, Accepts, contains_eq_false_iff]
    constructor
    · rintro ⟨r', e, hopen, base, hbase, -, hnew, -⟩
      have hname : base.name = existing := by simpa using List.find?_some hbase
      exact ⟨hopen, List.mem_map.2 ⟨base, List.mem_of_find?_eq_some hbase, hname⟩, hnew⟩
    · rintro ⟨hopen, hexisting, hnew⟩
      obtain ⟨base, hmem, rfl⟩ := List.mem_map.1 hexisting
      refine ⟨_, _, hopen, base, lookup_of_mem h hmem, hopen, hnew, by omega, ?_, _, rfl, rfl, rfl⟩
      intro m hm
      have hbounds := h.bounds base hmem
      obtain ⟨_, _, arity, flags, maximum⟩ := base
      cases maximum with
      | none => simp at hm
      | some n =>
        obtain ⟨hvariadic, hle⟩ := hbounds n rfl
        obtain rfl : (n : Int) = m := by simpa using hm
        exact ⟨Int.ofNat_le.2 hle, hvariadic⟩
  | operator fixity precedence name =>
    rw [Registry.perform, hmap, Prod.exists]
    simp only [declareOperator_eq_ok, Accepts, operator?_eq_none_iff]
    constructor
    · rintro ⟨r', op, hopen, hnew, -⟩
      exact ⟨hopen, hnew⟩
    · rintro ⟨hopen, hnew⟩
      exact ⟨_, _, hopen, hnew, rfl, rfl⟩
  | freeze => exact ⟨fun _ => trivial, fun _ => ⟨_, rfl⟩⟩

/-- **What a registry does with calls**, from then on. -/
structure Responds (r : Registry) : Prop where
  accepts_iff : ∀ c, (∃ x, r.perform c = .ok x) ↔ r.Accepts c
  grants : ∀ c r' g, r.perform c = .ok (r', g) → c.Grants g
  refused : ∀ c e, r.perform c = .error e → r.after c = r
  /-- The entry of a name never changes. -/
  lasting : ∀ name e, r.lookup name = some e → ∀ more, (r.run more).lookup name = some e
  /-- An alias is the entry that it repeats, under its own name. -/
  aliased : ∀ existing new x, r.perform (.synonym existing new) = .ok x → ∀ more, ∃ base,
    (r.run (.synonym existing new :: more)).lookup existing = some base ∧
      (r.run (.synonym existing new :: more)).lookup new = some { base with name := new }
  frozen : ∀ more, r.run (.freeze :: more) = r.freeze

theorem Sound.responds (h : r.Sound) : r.Responds where
  accepts_iff := h.accepts_iff
  grants _ _ _ := grants_of_perform
  refused c e hc := by rw [after, hc]
  lasting _ _ hname more := lookup_run hname more
  aliased existing new x hx more := by
    obtain ⟨base, hbase, hnew⟩ := lookup_of_synonym hx
    have hafter : r.after (.synonym existing new) = x.1 := by rw [after, hx]
    rw [run_cons, hafter]
    exact ⟨base, lookup_run hbase more, lookup_run hnew more⟩
  frozen more := run_of_frozen rfl more

/-- **A registry records its history.** After any calls on a new registry, accepted or refused, it
lists and finds exactly what the accepted ones gave back, in order, and it goes on from there: a
call is accepted where it may be and gives what it asks for, a refused one changes nothing, entries
stay what they are, and nothing changes a frozen registry. -/
theorem records_run (cs : List Change) :
    (empty.run cs).Records ((empty.gains cs).filterMap Gain.entry?)
        ((empty.gains cs).filterMap Gain.operator?) ∧
      (empty.run cs).Responds :=
  ⟨(traced_run cs).records, (traced_run cs).sound.responds⟩

end Registry

end TermCalc
