import TermCalc.Proofs.Results
import TermCalc.Proofs.Syntax.Sources

/-!
# The failures of reading

A reader never runs past the end of a text, and reads numbers only where there are digits; the
parser looks up no list. So a source that is not read is one with a fault at some place, or one with
a number that is too long.

* `Lexer.ofReading_of_tokens`: **the lexer.**
* `Parser.Plain`, `Parser.Sure`: tokens that are spelled by no list, and what the parser makes of
  them. `Parser.sure_of_plain`: **the parser**, function by function.
* `Parser.ofReading_of_parse`: **reading a source.**
-/

namespace TermCalc

namespace Lexer

variable {l : Lexer} {c : Cursor} {stop : Stop}

theorem ofReading_located (pos : Pos) (fault : SourceFault) :
    (l.located pos fault).ofReading = true :=
  Failure.ofReading_reported (e := .source l.file pos fault) rfl

theorem ofReading_of_readString (hc : c.ahead ≠ []) (h : l.readString c = .error stop) :
    stop.failure.ofReading = true := by
  unfold readString at h
  split at h
  · contradiction
  · split at h
    · cases h
    · cases h
      exact ofReading_located _ _

/-- Where a digit stands, there is a number. -/
theorem ofReading_of_readNumber {ch : Char} {rest : List Char} (hc : c.ahead = ch :: rest)
    (hdigit : isDigit ch = true) (h : readNumber c = .error stop) :
    stop.failure.ofReading = true := by
  have hwhole : (NumberLiteral.scan c.ahead).whole.isEmpty = false := by
    simp [NumberLiteral.scan, digitRun, hc, hdigit]
  have hnumber {e : Failure} (he : numberOf (NumberLiteral.scan c.ahead) = .error e) :
      e.ofReading = true := by
    unfold numberOf at he
    rw [hwhole] at he
    simp only [Bool.false_eq_true, if_false, Bool.false_and] at he
    split at he
    · split at he
      · cases he
        rfl
      · cases he
    · cases he
  unfold readNumber at h
  dsimp only at h
  split at h
  · cases h
  · rename_i e he
    cases h
    exact hnumber he

theorem ofReading_of_skipComment (hc : startsComment c.ahead = true)
    (h : l.skipComment c = .error stop) : stop.failure.ofReading = true := by
  unfold skipComment at h
  split at h
  · rename_i hnil
    simp [hnil, startsComment] at hc
  · rename_i hone
    simp [hone, startsComment] at hc
  · split at h
    · cases h
    · cases h
      exact ofReading_located _ _

theorem ofReading_of_skipBlank (h : l.skipBlank c = .error stop) :
    stop.failure.ofReading = true := by
  fun_induction skipBlank l c with
  | case1 => cases h
  | case2 _ _ _ _ _ ih => exact ih h
  | case3 _ _ _ _ _ _ _ _ ih => exact ih h
  | case4 c ch rest ha _ hcomment stop' hs =>
    cases h
    exact ofReading_of_skipComment (by rw [ha]; exact hcomment) hs
  | case5 => cases h

theorem ofReading_of_tokenHere (h : l.tokenHere c = .error stop) :
    stop.failure.ofReading = true := by
  unfold tokenHere at h
  split at h
  · cases h
  · rename_i ch rest hc
    have hne : c.ahead ≠ [] := by simp [hc]
    split at h
    · cases h
    · split at h
      · split at h
        · cases h
        · rename_i hs
          cases h
          exact ofReading_of_readString hne hs
      · split at h
        · rename_i hdigit
          split at h
          · cases h
          · rename_i hn
            cases h
            exact ofReading_of_readNumber hc hdigit hn
        · split at h
          · cases h
          · split at h
            · cases h
            · cases h
              exact ofReading_located _ _

theorem ofReading_of_nextToken (h : l.nextToken c = .error stop) :
    stop.failure.ofReading = true := by
  unfold nextToken at h
  split at h
  · exact ofReading_of_tokenHere h
  · rename_i hs
    cases h
    exact ofReading_of_skipBlank hs

/-- **The lexer fails only at a fault of the source or at a number that is too long.** -/
theorem ofReading_of_scan {e : Failure} (h : (l.scan c).failure = some e) :
    e.ofReading = true := by
  fun_induction scan l c with
  | case1 c stop hs =>
    cases h
    exact ofReading_of_nextToken hs
  | case2 => cases h
  | case3 _ _ _ _ _ _ ih => exact ih h

theorem ofReading_of_tokens {source : String} {e : Failure} (h : l.tokens source = .error e) :
    e.ofReading = true := by
  unfold tokens tokensFrom at h
  dsimp only at h
  split at h
  · cases h
  · rename_i failure hfailure
    cases h
    exact ofReading_of_scan hfailure

end Lexer

/-- Tokens of a text are spelled by texts. -/
theorem Token.Sound.spelledByList {known : List String} {t : Token} (h : t.Sound known) :
    t.spelledByList = false := by
  unfold Token.Sound at h
  unfold Token.spelledByList
  split
  · rename_i hk hv
    simp [hk, hv] at h
  · rename_i hk hv
    simp [hk, hv] at h
  · rfl

namespace Parser

/-- No token is spelled by a list. -/
def Plain (ts : List Token) : Prop := ∀ t ∈ ts, t.spelledByList = false

variable {p : Parser} {t : Token} {ts rest : List Token}

theorem plain_cons : Plain (t :: ts) ↔ t.spelledByList = false ∧ Plain ts := List.forall_mem_cons

theorem plain_of_after? {m : Mark} (h : m.after? ts = some rest) (hts : Plain ts) : Plain rest := by
  obtain ⟨u, rfl, -⟩ := Mark.after?_eq_some.1 h
  exact (plain_cons.1 hts).2

/-- A failure at some place of the source, as it is reported. -/
def Located (p : Parser) (e : Failure) : Prop :=
  ∃ pos fault, e = (Failure.source p.file pos fault).reported

theorem within_fault {α : Type} {Q : α → Prop} (t : Token) (cause : SourceFault) :
    Within p.Located Q (p.fault t cause) := ⟨t.pos, cause, rfl⟩

/-- **A fault of the source**, or a result with plain tokens behind it. -/
def Sure {α : Type} {n : Nat} (p : Parser) (x : Except Failure (Rest α n)) : Prop :=
  Within p.Located (fun x => Plain x.tokens) x

theorem sure_expect (m : Mark) (h : Plain ts) : p.Sure (p.expect m ts) := by
  unfold expect
  split
  · rename_i rest hrest
    exact plain_of_after? hrest h
  · exact within_fault _ _

theorem within_operatorForm (op : Operator) (operands : List Tree) (t : Token) :
    Within p.Located (fun _ => True) (p.operatorForm op operands t) := by
  unfold operatorForm
  split
  · trivial
  · exact within_fault _ _

/-- **Every function of the parser fails only at faults of the source**, and leaves plain tokens. -/
theorem sure_of_plain :
    (∀ ts depth, Plain ts → p.Sure (p.expression ts depth)) ∧
    (∀ lhs ts depth, Plain ts → p.Sure (p.operators lhs ts depth)) ∧
    (∀ ts, Plain ts → p.Sure (p.operand ts)) ∧
    (∀ t rest, Plain rest → p.Sure (p.primary t rest)) ∧
    (∀ start ts, Plain ts → p.Sure (p.block start ts)) ∧
    (∀ closing ts, Plain ts → p.Sure (p.arguments closing ts)) ∧
    (∀ closing ts, Plain ts → p.Sure (p.argumentList closing ts)) ∧
    (∀ t inner, Plain inner → p.Sure (p.call t inner)) := by
  apply expression.mutual_induct p
  case _ => -- an expression
    intro ts depth ihOperand ihOperators hts
    rw [expression]
    exact (ihOperand hts).bind fun lhs hlhs => (ihOperators lhs hlhs).bind fun _ h => h
  case _ => -- operators at the end
    intro lhs depth _
    rw [operators]
    exact fun _ h => by cases h
  case _ => -- operators before a list
    intro lhs depth t rest hs hts
    rw [(plain_cons.1 hts).1] at hs
    cases hs
  case _ => -- an infix operator
    intro lhs depth t rest hs op hop hfixity ihRhs ihMore hts
    rw [operators, if_neg hs, hop]
    simp only [hfixity, if_true]
    refine (ihRhs (plain_cons.1 hts).2).bind fun rhs hrhs => ?_
    refine (within_operatorForm op _ t).bind fun e _ => ?_
    exact (ihMore rhs e hrhs).bind fun _ h => h
  case _ => -- a postfix operator
    intro lhs depth t rest hs op hop hfixity ihMore hts
    rw [operators, if_neg hs, hop]
    simp only [hfixity, if_false]
    refine (within_operatorForm op _ t).bind fun e _ => ?_
    exact (ihMore e (plain_cons.1 hts).2).bind fun _ h => h
  case _ => -- no operator goes on
    intro lhs depth t rest hs hop hts
    rw [operators, if_neg hs, hop]
    exact hts
  case _ => -- no operand
    intro _
    rw [operand]
    exact within_fault _ _
  case _ => -- an operand spelled by a list
    intro t rest hs hts
    rw [(plain_cons.1 hts).1] at hs
    cases hs
  case _ => -- a symbol before a parenthesis
    intro t rest hs inner hi hk ihArgs ihMore hts
    have hinner := plain_of_after? hi (plain_cons.1 hts).2
    rw [operand, if_neg hs]
    split
    · rename_i _ _ inner' hi' _
      obtain rfl : inner = inner' := Option.some.inj (hi.symm.trans hi')
      refine (ihArgs hinner).bind fun operands hoperands => ?_
      split
      · rename_i op first hop hone
        refine (ihMore operands op first hoperands).bind fun x hx => ?_
        exact (within_operatorForm op _ t).bind fun _ _ => hx
      · exact hoperands
    · rename_i hi' _
      rw [hi] at hi'
      cases hi'
    · rename_i hnot _
      exact (hnot inner hi hk).elim
  case _ => -- a prefix operator
    intro t rest hs op hi hop ihOperand hts
    rw [operand, if_neg hs]
    split
    · rename_i hi' _
      rw [hi] at hi'
      cases hi'
    · rename_i op' _ hop'
      obtain rfl : op = op' := Option.some.inj (hop.symm.trans hop')
      refine (ihOperand (plain_cons.1 hts).2).bind fun x hx => ?_
      exact (within_operatorForm op _ t).bind fun _ _ => hx
    · rename_i hnot
      exact (hnot op hi hop).elim
  case _ => -- a primary expression
    intro t rest hs hcall hunary ihPrimary hts
    rw [operand, if_neg hs]
    split
    · rename_i inner hi hk
      exact (hcall inner hi hk).elim
    · rename_i op hi hop
      exact (hunary op hi hop).elim
    · exact ihPrimary (plain_cons.1 hts).2
  case _ => -- a number
    intro t rest hk hrest
    rw [primary, hk]
    exact hrest
  case _ => -- a string
    intro t rest hk hrest
    rw [primary, hk]
    exact hrest
  case _ => -- a call
    intro t rest hk inner hi ihCall hrest
    rw [primary, hk]
    dsimp only
    split
    · rename_i inner' hi'
      obtain rfl : inner = inner' := Option.some.inj (hi.symm.trans hi')
      exact (ihCall (plain_of_after? hi hrest)).bind fun _ hx => hx
    · rename_i hi'
      rw [hi] at hi'
      cases hi'
  case _ => -- an atom
    intro t rest hk hi hrest
    rw [primary, hk]
    dsimp only
    split
    · rename_i inner' hi'
      rw [hi] at hi'
      cases hi'
    · exact hrest
  case _ => -- parentheses
    intro t rest hk ihExpr hrest
    rw [primary, hk]
    exact (ihExpr hrest).bind fun x hx => (sure_expect _ hx).bind fun _ hclose => hclose
  case _ => -- braces
    intro t rest hk ihArgs hrest
    rw [primary, hk]
    exact (ihArgs hrest).bind fun _ hitems => hitems
  case _ => -- brackets
    intro t rest hk ihBlock hrest
    rw [primary, hk]
    exact (ihBlock hrest).bind fun _ hbody => hbody
  case _ => -- the end
    intro t rest hk _
    rw [primary, hk]
    exact within_fault _ _
  case _ => -- a token that starts nothing
    intro t rest hnumber hstring hatom hparen hbrace hbracket hfinish _
    rw [primary]
    split
    case h_8 => exact within_fault _ _
    all_goals contradiction
  case _ => -- a block that has no end
    intro start _
    rw [block]
    exact within_fault _ _
  case _ => -- the end of a block
    intro start t rest hk hts
    rw [block, if_pos hk]
    exact (plain_cons.1 hts).2
  case _ => -- the end in a block
    intro start t rest hk hfinish _
    rw [block, if_neg hk, if_pos hfinish]
    exact within_fault _ _
  case _ => -- a semicolon in a block
    intro start t rest hk hfinish hsemi ih hts
    rw [block, if_neg hk, if_neg hfinish, if_pos hsemi]
    exact (ih (plain_cons.1 hts).2).bind fun _ hmore => hmore
  case _ => -- a statement in a block
    intro start t rest hk hfinish hsemi ihExpr ihMore ihNext hts
    rw [block, if_neg hk, if_neg hfinish, if_neg hsemi]
    refine (ihExpr hts).bind fun x hx => ?_
    dsimp only
    split
    · exact (ihMore x hx).bind fun _ hmore => hmore
    · exact (sure_expect _ hx).bind fun next hnext =>
        (ihNext x next hnext).bind fun _ hmore => hmore
  case _ => -- no arguments
    intro closing ts rest hi hts
    rw [arguments]
    split
    · rename_i rest' hi'
      exact plain_of_after? hi' hts
    · rename_i hi'
      rw [hi] at hi'
      cases hi'
  case _ => -- arguments
    intro closing ts hi ihItems hts
    rw [arguments]
    split
    · rename_i rest' hi'
      rw [hi] at hi'
      cases hi'
    · exact ihItems hts
  case _ => -- items
    intro closing ts ihExpr ihMore hts
    rw [argumentList]
    refine (ihExpr hts).bind fun x hx => ?_
    split
    · rename_i rest hcomma
      exact (ihMore x rest hcomma (plain_of_after? hcomma hx)).bind fun _ hmore => hmore
    · exact (sure_expect _ hx).bind fun _ hclose => hclose
  case _ => -- the arguments of a call
    intro t inner ihArgs ihBody hinner
    rw [call]
    refine (ihArgs hinner).bind fun operands hoperands => ?_
    split
    · rename_i op hop
      refine (ihBody operands op hoperands).bind fun body hbody => ?_
      exact (within_operatorForm op _ t).bind fun _ _ => hbody
    · exact hoperands

theorem located_of_statements (hts : Plain ts) {e : Failure} (h : p.statements ts = .error e) :
    p.Located e := by
  suffices hwithin : Within p.Located (fun _ => True) (p.statements ts) by
    rw [h] at hwithin
    exact hwithin
  clear h
  fun_induction statements p ts with
  | case1 => trivial
  | case2 => trivial
  | case3 t rest _ _ ih => exact ih (plain_cons.1 hts).2
  | case4 t rest _ _ ih =>
    refine (sure_of_plain.1 _ _ hts).bind fun x hx => ?_
    split
    · trivial
    · exact (sure_expect _ hx).bind fun next hnext =>
        (ih x next hnext).bind fun _ _ => trivial

theorem plain_supply (hts : Plain ts) : Plain (supply ts) := by
  unfold supply
  split
  · exact hts
  · intro t ht
    rcases List.mem_append.1 ht with ht | ht
    · exact hts t ht
    · rw [List.eq_of_mem_replicate ht]
      cases hlast : ts.getLast? with
      | none =>
        rw [List.getLastD_eq_getLast?, hlast]
        rfl
      | some last =>
        rw [List.getLastD_eq_getLast?, hlast]
        exact hts last (List.mem_of_getLast? hlast)

/-- **Parsing plain tokens fails only at faults of the source.** -/
theorem located_of_parseTokens (hts : Plain ts) {e : Failure} (h : p.parseTokens ts = .error e) :
    p.Located e :=
  located_of_statements (plain_supply hts) h

/-- **Reading a source fails only at a fault of it or at a number that is too long.** -/
theorem ofReading_of_parse {source : String} {e : Failure} (h : p.parse source = .error e) :
    e.ofReading = true := by
  rcases bind_eq_error_iff.1 h with htokens | ⟨ts, htokens, h⟩
  · exact Lexer.ofReading_of_tokens htokens
  · rcases bind_eq_error_iff.1 h with htrees | ⟨trees, -, h⟩
    · have hplain : Plain ts := fun t ht => ((Lexer.sound_of_tokens htokens).1 t ht).spelledByList
      obtain ⟨pos, fault, rfl⟩ := located_of_parseTokens hplain htrees
      exact Failure.ofReading_reported (e := .source _ pos fault) rfl
    · cases h

end Parser

end TermCalc
