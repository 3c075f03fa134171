import TermCalc.Proofs.Evaluation.Stackless
import TermCalc.Proofs.Syntax.Layout
import TermCalc.Proofs.Term.Backends
import TermCalc.Session

/-!
# Writing values

Printing only adds to an output, and so does the builtin that prints its arguments.

* `Registry.Arguments`: **arguments that evaluate to values**, one after the other.
* `writeAll_eq`: values that have texts are written as these, one behind the other.
* `Registry.evaluate_write`: **the call adds the texts of its arguments** to what evaluating them
  has written.
* `printing_appends`: all of this together, with what printing does to every output.
-/

namespace TermCalc

/-! ### Texts of values -/

theorem World.write_write (w : World) (a b : String) : (w.write a).write b = w.write (a ++ b) := by
  simp [World.write, Output.write, String.append_assoc, Nat.add_assoc]

theorem World.write_empty (w : World) : w.write "" = w := by
  simp [World.write, Output.write]

/-- A value is written as its text. -/
theorem printOut_eq_write {r : Registry} {e : Term} {text : String} (h : r.textOf e = .ok text)
    (w : World) : (printOut r e : Action World Unit) w = .value () (w.write text) := by
  have hprint := (Registry.emits_of_textOf h).buffer w.output
  rw [printOut_eq]
  simp only [Action.inWorld, HasWorld.world, HasWorld.withWorld, id_eq, hprint]
  rfl

/-- **Values are written as their texts**, one behind the other. -/
theorem writeAll_eq {r : Registry} {vs : List Term} {texts : List String}
    (h : List.Forall₂ (fun v text => Session.format r v = .ok text) vs texts) (w : World) :
    (writeAll r vs : Action World Unit) w = .value () (w.write (String.join texts)) := by
  induction h generalizing w with
  | nil => rw [String.join_nil, World.write_empty]; rfl
  | @cons v text vs texts hv _ ih =>
    unfold Session.format at hv
    split at hv
    · rename_i e he
      rw [writeAll, he, String.join_cons, ← World.write_write]
      change ((printOut r e w).andThen fun _ => writeAll r vs) = _
      rw [printOut_eq_write hv]
      exact ih (w.write text)
    · cases hv

/-! ### The call -/

namespace Registry

variable {r : Registry} {fuel : Nat} {args vs : List Term} {m m' : Machine}

/-- **Arguments that evaluate to values**, one after the other, each on top of the values of those
before it. An evaluation leaves the stack as it was. -/
inductive Arguments (r : Registry) (fuel : Nat) :
    List Term → List Term → Machine → Machine → Prop
  | nil (m : Machine) : Arguments r fuel [] [] m m
  | cons {t v : Term} {ts vs : List Term} {m m' : Machine} {w : World} :
      r.evaluate fuel t m = .value v ⟨m.stack, w⟩ →
      Arguments r fuel ts vs ⟨m.stack.push v, w⟩ m' → Arguments r fuel (t :: ts) (v :: vs) m m'

namespace Arguments

theorem length_eq (h : r.Arguments fuel args vs m m') : args.length = vs.length := by
  induction h with
  | nil => rfl
  | cons _ _ ih => rw [List.length_cons, List.length_cons, ih]

theorem stack_eq (h : r.Arguments fuel args vs m m') : m'.stack = m.stack.pushAll vs := by
  induction h with
  | nil => rfl
  | cons _ _ ih => rw [ih, Stack.pushAll_cons]

theorem pushOperands_eq (h : r.Arguments fuel args vs m m') :
    pushOperands (r.evaluate fuel) false args m = .value () m' := by
  induction h with
  | nil => rfl
  | cons ht _ ih =>
    change ((r.evaluate fuel _ _).andThen _) = _
    rw [ht]
    exact ih

end Arguments

/-- **The call of the builtin that prints** writes the texts of the values of its arguments behind
what evaluating these has written. It leaves the stack as it was. -/
theorem evaluate_write {name : String} {entry : Entry} {texts : List String} {pos : Pos}
    (he : r.lookup name = some entry) (hp : entry.implementation = .primitive .write)
    (hholds : entry.flags.holds = false) (ha : entry.accepts args.length = true)
    (hargs : r.Arguments fuel args vs m m')
    (hvs : List.Forall₂ (fun v text => Session.format r v = .ok text) vs texts) :
    r.evaluate (fuel + 1) (.form name args pos) m =
      .value (.truth true) ⟨m.stack, m'.world.write (String.join texts)⟩ := by
  -- the builtin evaluates nothing itself, so that it can be invoked with any evaluator
  have hinvoke : r.invoke fuel (r.evaluate fuel) name vs.length =
      r.invoke fuel (fun t => pure t) name vs.length := by
    simp only [invoke, he, call, hp]
    rfl
  have hev (t : Term) : Simulation.stackless.Related (pure t) (pure t) :=
    Simulation.stackless.related_pure t
  have hwritten := r.invoke_pushAll fuel hev he hp (hargs.length_eq ▸ ha) m.stack m'.world
  have hrun (ev : Evaluator World) : Primitive.run r fuel ev .write vs m'.world =
      .value (.truth true) (m'.world.write (String.join texts)) := by
    change ((writeAll r vs m'.world).andThen _) = _
    rw [writeAll_eq hvs]
    rfl
  have hm' : m' = ⟨m.stack.pushAll vs, m'.world⟩ := by rw [← hargs.stack_eq]
  rw [evaluate, evaluateOnce, r.apply_accepted fuel he ha]
  dsimp only
  rw [hholds, hargs.pushOperands_eq, hargs.length_eq, Outcome.andThen, hinvoke, hm', hwritten, hrun]
  simp only [Outcome.mapState, Machine.dropTo, Machine.height]
  rw [show (m.stack.push (.truth true)).cutTo m.stack.height = m.stack from
    Stack.cutTo_pushAll [.truth true] m.stack]

end Registry

/-- **Printing only appends.** With every table, an expression that has a text is printed onto every
output as this text behind what is there: a buffer gets it, and an output of single characters gets
one after the other. Of an expression that has none, every output gets some text and then the
failure. The builtin that prints its arguments adds the texts of their values to what evaluating
them has written. -/
theorem printing_appends (r : Registry) :
    (∀ t text, r.textOf t = .ok text → r.Emits t text none) ∧
      (∀ t e, r.textOf t = .error e → ∃ text, r.Emits t text (some e)) ∧
      ∀ name entry args vs texts fuel m m' pos, r.lookup name = some entry →
        entry.implementation = .primitive .write → entry.flags.holds = false →
        entry.accepts args.length = true → r.Arguments fuel args vs m m' →
        List.Forall₂ (fun v text => Session.format r v = .ok text) vs texts →
        r.evaluate (fuel + 1) (.form name args pos) m =
          .value (.truth true) ⟨m.stack, m'.world.write (String.join texts)⟩ :=
  ⟨fun _ _ => Registry.emits_of_textOf, fun _ _ => Registry.exists_emits_of_textOf,
    fun _ _ _ _ _ _ _ _ _ => Registry.evaluate_write⟩

attribute [local irreducible] coreRegistry

namespace CoreTable

theorem textOf_text (s : String) (pos : Pos) :
    coreRegistry.textOf (.text s pos) = .ok (String.ofList (layout [.quote s])) :=
  ((Written.text (by decide)).printAt regular).textOf

theorem textOf_atom {name : String} (hname : isName name = true) (hnot : name ≠ "Not")
    (pos : Pos) :
    coreRegistry.textOf (.atom name pos) = .ok (String.ofList (layout [.word name])) :=
  ((Written.atom (by decide) hname (operator?_prefixed_of_isName hname hnot)).printAt regular).textOf

end CoreTable

/-- A string and a name, written behind some text. -/
theorem printing_appends_string :
    coreRegistry.Emits (.text "a" .none) "\"a\"" none ∧
      (∃ text, coreRegistry.Emits (.truth true) text (some (.notPrintable "bool"))) ∧
      coreRegistry.evaluate 2 (.form "Write" [.text "a" .none, .atom "b" .none] .none)
          ⟨.empty, ⟨.empty, .ofText "> ", 0⟩⟩ =
        .value (.truth true) ⟨.empty, ⟨.empty, .ofText "> \"a\"b", 0⟩⟩ := by
  obtain ⟨hok, herror, hwrite⟩ := printing_appends coreRegistry
  have htext := CoreTable.textOf_text "a" .none
  have hstring : Session.format coreRegistry (.str "a") = .ok "\"a\"" := htext
  have hname : Session.format coreRegistry (.atom "b" .none) = .ok "b" :=
    CoreTable.textOf_atom (by decide) (by decide) .none
  have he : coreRegistry.lookup "Write" = some ⟨"Write", .primitive .write, 1, .atLeast, none⟩ := by
    rw [Registry.lookup, CoreTable.entries_eq]
    rfl
  have hargs : coreRegistry.Arguments 1 [.text "a" .none, .atom "b" .none]
      [.str "a", .atom "b" .none] ⟨.empty, ⟨.empty, .ofText "> ", 0⟩⟩
      ⟨Stack.empty.pushAll [.str "a", .atom "b" .none], ⟨.empty, .ofText "> ", 0⟩⟩ :=
    .cons rfl (.cons rfl (.nil _))
  refine ⟨hok _ _ htext, herror _ _ ?_, ?_⟩
  · rw [Registry.textOf, Registry.print, Registry.printAt]
    rfl
  · exact hwrite _ _ _ _ _ 1 _ _ _ he rfl rfl rfl hargs (.cons hstring (.cons hname .nil))

end TermCalc
