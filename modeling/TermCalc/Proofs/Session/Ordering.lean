import TermCalc.Proofs.Session.Statements
import TermCalc.Proofs.Syntax.Agreement

/-!
# The order of declarations

Evaluation, and sessions that read and run sources, use no more of a registry than what it finds. So
sessions over registries that agree do the same, and in what order a table lists its declarations is
seen in listings only.

* `Registry.evaluate_agree`: **the same values**, failures and effects.
* `Session.under`, `Session.Twins`: sessions that differ in their registries alone.
  `Session.twinned_parse`, `Session.twinned_run`: they stay so.
* `Session.alike_of_perm`: **the order of declarations matters only for listings.**
-/

namespace TermCalc

namespace Registry

/-! ### Evaluation -/

section Evaluation

variable {r r' : Registry} (h : r.Agrees r') {σ : Type} [HasWorld σ]
include h

theorem writeAll_agree (ts : List Term) : writeAll (σ := σ) r ts = writeAll r' ts := by
  have hprint (e : Term) : printOut (σ := σ) r e = printOut r' e := by
    funext s
    simp only [printOut, print_agree h]
  induction ts with
  | nil => rfl
  | cons t ts ih => simp only [writeAll, hprint, ih]

/-- A primitive uses a registry only to print. -/
theorem run_agree (fuel : Nat) (ev : Evaluator σ) (p : Primitive) (args : List Term) :
    p.run r fuel ev args = p.run r' fuel ev args := by
  simp only [Primitive.run, writeAll_agree h]

theorem invoke_agree (fuel : Nat) (ev : Evaluator Machine) (name : String) (count : Int) :
    invoke r fuel ev name count = invoke r' fuel ev name count := by
  have hcall (i : Implementation) (marker : Nat) :
      call r fuel ev i marker = call r' fuel ev i marker := by
    cases i with
    | primitive p => simp only [call, run_agree h]
    | routine label act => rfl
  simp only [invoke, h.lookup, hcall]

/-- **Terms have the same values**, fail alike and have the same effects. -/
theorem evaluate_agree (fuel : Nat) : r.evaluate fuel = r'.evaluate fuel := by
  induction fuel with
  | zero => rfl
  | succ fuel ih =>
    funext t
    rw [evaluate, evaluate, ih]
    cases t with
    | form op args pos => simp only [evaluateOnce, apply, h.lookup, invoke_agree h]
    | _ => simp only [evaluateOnce]

end Evaluation

end Registry

/-! ### Sessions -/

namespace Session

/-- The session under another registry. -/
def under (r : Registry) (s : Session) : Session := { s with registry := r }

/-- **Sessions that differ in their registries alone.** -/
structure Twins (r r' : Registry) (s s' : Session) : Prop where
  left : s.registry = r
  right : s' = s.under r'

/-- Actions that do the same to such sessions. -/
abbrev Twinned (r r' : Registry) {α β : Type} (R : α → β → Prop) (x : Action Session α)
    (y : Action Session β) : Prop :=
  Action.InStep (Twins r r') (fun _ => True) R x y

variable {r r' : Registry}

theorem twins_under (s : Session) : Twins r r' (s.under r) (s.under r') := ⟨rfl, rfl⟩

theorem Twins.note {s s' : Session} (hs : Twins r r' s s') (text : String) :
    Twins r r' (s.note text) (s'.note text) := by
  obtain ⟨rfl, rfl⟩ := hs
  unfold Session.note under
  split <;> exact ⟨rfl, rfl⟩

/-- What is done alike is the same but for the registry. -/
theorem Twinned.mapState {α : Type} {x : Action Session α} (hx : Twinned r r' Eq x x)
    (s : Session) :
    x (s.under r') = (x (s.under r)).mapState (under r') := by
  match x (s.under r), x (s.under r'), (hx _ _ (twins_under s)).1 with
  | _, _, .value rfl ⟨_, rfl⟩ => rfl
  | _, _, .failure _ ⟨_, rfl⟩ => rfl
  | _, _, .exhausted => rfl

theorem twinned_onMachine {α : Type} (x : Action Machine α) :
    Twinned r r' Eq (onMachine x) (onMachine x) := by
  rintro s _ ⟨rfl, rfl⟩
  refine ⟨?_, fun _ _ _ => trivial⟩
  show Outcomes _ _ (onMachine x s) (onMachine x (s.under r'))
  unfold onMachine under
  cases x s.machine with
  | value a m => exact .value rfl ⟨rfl, rfl⟩
  | failure e m => exact .failure e ⟨rfl, rfl⟩
  | exhausted => exact .exhausted

theorem twinned_release : Twinned r r' Eq release release := by
  rintro s _ ⟨rfl, rfl⟩
  exact ⟨.value rfl ⟨rfl, rfl⟩, fun _ _ _ => trivial⟩

theorem twinned_note (text : String) :
    Twinned r r' Eq (Action.modify (note text)) (Action.modify (note text)) :=
  .modify fun _ _ hs => hs.note text

theorem twinned_ofExcept {α : Type} (x : Except Failure α) :
    Twinned r r' Eq (Action.ofExcept x) (Action.ofExcept x) :=
  .ofExcept (.of_eq (fun _ => rfl) rfl) fun _ _ => trivial

theorem twinned_registry : Twinned r r' (fun a b => a = r ∧ b = r') (Action.read Session.registry)
    (Action.read Session.registry) :=
  .read fun _ _ hs => ⟨hs.left, by rw [hs.right]; rfl⟩

variable (h : r.Agrees r')
include h

/-- **The same tokens**, which have an end. -/
theorem twinned_tokens (source file : String) :
    Twinned r r' (fun ts us => ts = us ∧ Parser.Ended ts) (tokens source file)
      (tokens source file) := by
  refine .bind (R := fun known known' => known = r.operatorNames ∧ known' = r'.operatorNames)
    (.read fun _ _ hs => ⟨by rw [hs.left], by rw [hs.right]; rfl⟩) ?_
  rintro _ _ ⟨rfl, rfl⟩
  have htokens : Results (fun ts us => ts = us ∧ Parser.Ended ts)
      (Lexer.tokens ⟨file, r.operatorNames⟩ source)
      (Lexer.tokens ⟨file, r'.operatorNames⟩ source) := by
    rw [Lexer.tokens_agree h]
    cases ht : Lexer.tokens ⟨file, r'.operatorNames⟩ source with
    | ok ts => exact .ok ⟨rfl, Parser.ended_of_tokens ht⟩
    | error e => exact .error e
  refine .bind (.ofExcept htokens fun _ _ => trivial) ?_
  rintro ts _ ⟨rfl, hend⟩
  exact (twinned_note _).bind fun _ _ _ => .pure ⟨rfl, hend⟩

/-- **The same statements.** -/
theorem twinned_parse (source file : String) :
    Twinned r r' Eq (parse source file) (parse source file) := by
  refine (twinned_tokens h source file).bind ?_
  rintro ts _ ⟨rfl, hend⟩
  refine twinned_registry.bind ?_
  rintro _ _ ⟨rfl, rfl⟩
  rw [Parser.parseTokens_agree h file hend]
  refine (twinned_ofExcept _).bind ?_
  rintro trees _ rfl
  exact (twinned_note _).bind fun _ _ _ => .pure rfl

/-- **The same values.** -/
theorem twinned_evaluateFrom (fuel : Nat) (ts : List Term) (last : Term) :
    Twinned r r' Eq (evaluateFrom fuel last ts) (evaluateFrom fuel last ts) := by
  induction ts generalizing last with
  | nil => exact .pure rfl
  | cons t ts ih =>
    refine (twinned_ofExcept t.noted).bind ?_
    rintro text _ rfl
    refine (twinned_note _).bind fun _ _ _ => twinned_registry.bind ?_
    rintro _ _ ⟨rfl, rfl⟩
    rw [Registry.evaluate_agree h]
    refine (twinned_onMachine _).bind ?_
    rintro v _ rfl
    exact ih v

theorem format_agree (value : Term) : format r value = format r' value := by
  simp only [format, Registry.textOf_agree h]

/-- **The same runs.** -/
theorem twinned_run (fuel : Nat) (source file : String) :
    Twinned r r' Eq (run fuel source file) (run fuel source file) := by
  refine (twinned_parse h source file).bind ?_
  rintro statements _ rfl
  refine (twinned_evaluateFrom h fuel statements .nothing).bind ?_
  rintro value _ rfl
  refine twinned_release.bind ?_
  rintro text _ rfl
  split
  · exact .pure rfl
  · refine twinned_registry.bind ?_
    rintro _ _ ⟨rfl, rfl⟩
    rw [format_agree h]
    refine (twinned_ofExcept _).bind ?_
    rintro shown _ rfl
    exact .pure rfl

omit h

/-! ### Tables in another order -/

/-- **The order of declarations matters only for listings.** Two tables that list the same
declarations, in which no label is registered twice and no name that can be called looks like a
label, build registries that find the same entries and operators of the same precedence. Whatever
is read, printed or run over one of them comes to the same over the other. -/
theorem alike_of_perm {ds ds' : List Declaration} (hp : ds.Perm ds') (hl : LabelsOnce ds)
    (hu : Untagged ds) (h : Registry.build ds = .ok r) (h' : Registry.build ds' = .ok r') :
    (∀ name, r.lookup name = r'.lookup name) ∧
    (∀ fixity name, (r.operator? fixity name).map (·.precedence) =
      (r'.operator? fixity name).map (·.precedence)) ∧
    (∀ (t : Term) (s : Buffer), r.print t s = r'.print t s) ∧
    (∀ value, format r value = format r' value) ∧
    ∀ (s : Session) (source file : String) (fuel : Nat) (ts : List Term),
      tokens source file (s.under r') = (tokens source file (s.under r)).mapState (under r') ∧
      parse source file (s.under r') = (parse source file (s.under r)).mapState (under r') ∧
      evaluateAll fuel ts (s.under r') = (evaluateAll fuel ts (s.under r)).mapState (under r') ∧
      run fuel source file (s.under r') = (run fuel source file (s.under r)).mapState (under r') := by
  have hagree := Registry.Agrees.of_perm hp hl hu h h'
  refine ⟨hagree.lookup, fun fixity name => ?_, fun t s => Registry.print_agree hagree t s,
    format_agree hagree, fun s source file fuel ts => ⟨?_, ?_, ?_, ?_⟩⟩
  · rcases cases_of_map_eq (hagree.operator fixity name) with ⟨hop, hop'⟩ | ⟨op, op', hop, hop', heq⟩
    · rw [hop, hop']
    · rw [hop, hop']
      exact congrArg some (Operator.unnumbered_eq_iff.1 heq).2.1
  · exact Twinned.mapState ((twinned_tokens hagree source file).mono fun _ _ h => h.1) s
  · exact Twinned.mapState (twinned_parse hagree source file) s
  · exact Twinned.mapState (twinned_evaluateFrom hagree fuel ts .nothing) s
  · exact Twinned.mapState (twinned_run hagree fuel source file) s

/-- An operator declared before or behind the function and the alias that it is written for. -/
theorem alike_of_perm_sum : ∃ r r',
    Registry.build [.operator .infixed 70 "+", .function "builtin_add" "Add" 2 .fixed none,
      .synonym "builtin_add" "+" 2 .fixed] = .ok r ∧
    Registry.build [.function "builtin_add" "Add" 2 .fixed none,
      .synonym "builtin_add" "+" 2 .fixed, .operator .infixed 70 "+"] = .ok r' ∧
    r.lookup "+" = r'.lookup "+" ∧
    run 9 "1 + 2" "" ((start r false).under r') =
      (run 9 "1 + 2" "" ((start r false).under r)).mapState (under r') := by
  have hp : ([.operator .infixed 70 "+"] ++ [.function "builtin_add" "Add" 2 .fixed none,
      .synonym "builtin_add" "+" 2 .fixed] : List Declaration).Perm _ := List.perm_append_comm
  have hl : LabelsOnce [.operator .infixed 70 "+", .function "builtin_add" "Add" 2 .fixed none,
      .synonym "builtin_add" "+" 2 .fixed] := by unfold LabelsOnce; decide
  have hu : Untagged [.operator .infixed 70 "+", .function "builtin_add" "Add" 2 .fixed none,
      .synonym "builtin_add" "+" 2 .fixed] := by
    intro d hd name hname
    simp only [List.mem_cons, List.not_mem_nil, or_false] at hd
    rcases hd with rfl | rfl | rfl <;> cases hname <;> decide
  refine ⟨_, _, rfl, rfl, ?_⟩
  have halike := alike_of_perm hp hl hu rfl rfl
  exact ⟨halike.1 "+", (halike.2.2.2.2 _ "1 + 2" "" 9 []).2.2.2⟩

end Session

end TermCalc
