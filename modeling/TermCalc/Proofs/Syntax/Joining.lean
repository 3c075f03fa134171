import TermCalc.Proofs.Number.Literals
import TermCalc.Proofs.Syntax.Appending
import TermCalc.Proofs.Syntax.Displacement
import TermCalc.Proofs.Syntax.Rereading
import TermCalc.Proofs.Syntax.Sources
import TermCalc.Proofs.Term.Places

/-!
# Joined sources

Tokens are read alike wherever they stand, and the end of a source can be replaced by a semicolon
with the statements of another source behind it.

* `Moved`: tokens in other places, and other tokens for the end.
* `Parser.reads_joined`: **statements are read alike**, and then those that stand for the end.
* `Parser.parseTokens_joined`: the statements of two sources with a semicolon between them.
* `Parser.trees_of_parse`: what is read from a source is made of its characters, so it equals itself
  and every number in it is short enough to be written out.
-/

namespace TermCalc

/-! ### Statements -/

/-- **Tokens in other places**, with tokens `z` for the end and all behind it. -/
abbrev Moved (z : List Token) : List Token → List Token → Prop :=
  Displaced (fun t u => t.shape = u.shape) z

theorem Moved.of_shapes {z body us rest : List Token} (h : us.map Token.shape =
    body.map Token.shape) (hbody : ∀ t ∈ body, t.kind ≠ .finish)
    (hrest : (Parser.current rest).kind = .finish) : Moved z (body ++ rest) (us ++ z) := by
  have hshapes : List.Forall₂ (fun t u => t.shape = u.shape) body us := by
    refine List.forall₂_map_right_iff.1 (List.forall₂_map_left_iff.1 ?_)
    rw [h]
    exact List.forall₂_same.2 fun _ _ => rfl
  exact .append hshapes hbody hrest

/-- A separator or the end: what may stand behind the last statement of a source. -/
def TokenKind.Separates (k : TokenKind) : Prop := k = .finish ∨ k = .mark .semicolon

theorem TokenKind.Separates.ends {t : Token} (h : t.kind.Separates) : t.Ends :=
  h.imp_right fun hk => ⟨.semicolon, hk, by decide⟩

theorem Moved.separates {z ts us : List Token} (hz : (Parser.current z).kind.Separates)
    (h : Moved z ts us) (hk : (Parser.current ts).kind.Separates) :
    (Parser.current us).kind.Separates := by
  rcases h.current_cases with ⟨-, rfl⟩ | ⟨-, hshape⟩
  · exact hz
  · rwa [← Token.kind_eq hshape]

namespace Parser

variable {p : Parser} {z : List Token}

/-- **Statements are read alike from displaced tokens**, and behind them those that stand for the
end. -/
theorem reads_joined (hz : (current z).kind.Separates) {zs : List Tree} {zrest : List Token}
    (hzs : Reads p .statements z zs zrest) {f : Phrase} {ts rest : List Token} {xs : List Tree}
    (h : Reads p f ts xs rest) (hf : f = .statements) {us : List Token} (hd : Moved z ts us) :
    ∃ ys, List.Forall₂ Tree.Alike xs ys ∧ Reads p .statements us (ys ++ zs) zrest := by
  induction h generalizing us with
  | finish hk =>
    -- the end is displaced by `z`, with the statements there
    rcases hd.current_cases with ⟨-, rfl⟩ | ⟨hk', -⟩
    · exact ⟨[], .nil, hzs⟩
    · exact absurd hk hk'
  | skip hk _ ih =>
    obtain ⟨t', us, rfl, hk', -, hd⟩ := hd.mark id hk
    obtain ⟨ys, hys, hread⟩ := ih rfl hd
    exact ⟨ys, hys, .skip hk' hread⟩
  | statement hfinish hsemi hx hsep _ _ ih =>
    obtain ⟨t', us, rfl, hshape, hd⟩ := hd.cons hfinish
    obtain ⟨_, mid, hx', _ | ⟨hxs, _ | _⟩, hmid⟩ :=
      reads_displaced Tree.congruence_alike hz.ends hx trivial rfl (.token hfinish hshape hd)
    obtain ⟨ys, hys, hread⟩ := ih rfl hmid
    rw [Token.kind_eq hshape] at hfinish hsemi
    exact ⟨_, .cons hxs hys, .statement hfinish hsemi hx' (Moved.separates hz hmid hsep) hread⟩
  | _ => cases hf

/-- The tokens of statements are read up to the end. -/
theorem reads_of_parseTokens {body : List Token} {last : Token}
    (hbody : ∀ t ∈ body, t.kind ≠ .finish) (hlast : last.kind = .finish) {xs : List Tree} :
    p.parseTokens (body ++ [last]) = .ok xs ↔ Reads p .statements (body ++ [last]) xs [last] := by
  rw [parseTokens, supply_eq (t := last) (by simp) hlast, statements_eq_ok_iff]
  constructor
  · rintro ⟨rest, hread⟩
    rwa [(takes_of_reads hread).rest_eq hbody hlast (finish_of_statements hread rfl)] at hread
  · exact fun hread => ⟨_, hread⟩

/-- **The statements of two sources with a semicolon between them** are those of the first and then
those of the second, but for their places. -/
theorem parseTokens_joined {body₁ body₂ us₁ us₂ : List Token} {last₁ last₂ last semicolon : Token}
    (hbody₁ : ∀ t ∈ body₁, t.kind ≠ .finish) (hbody₂ : ∀ t ∈ body₂, t.kind ≠ .finish)
    (hlast₁ : last₁.kind = .finish) (hlast₂ : last₂.kind = .finish) (hlast : last.kind = .finish)
    (hsemicolon : semicolon.kind = .mark .semicolon)
    (hus₁ : us₁.map Token.shape = body₁.map Token.shape)
    (hus₂ : us₂.map Token.shape = body₂.map Token.shape) {xs₁ xs₂ : List Tree}
    (h₁ : p.parseTokens (body₁ ++ [last₁]) = .ok xs₁)
    (h₂ : p.parseTokens (body₂ ++ [last₂]) = .ok xs₂) :
    ∃ ys₁ ys₂, p.parseTokens (us₁ ++ semicolon :: us₂ ++ [last]) = .ok (ys₁ ++ ys₂) ∧
      List.Forall₂ Tree.Alike xs₁ ys₁ ∧ List.Forall₂ Tree.Alike xs₂ ys₂ := by
  have hread₁ := (reads_of_parseTokens hbody₁ hlast₁).1 h₁
  have hread₂ := (reads_of_parseTokens hbody₂ hlast₂).1 h₂
  -- the second source, with its own end
  obtain ⟨ys₂, hys₂, hread₂⟩ := reads_joined (z := [last]) (.inl hlast) (.finish hlast) hread₂ rfl
    (Moved.of_shapes hus₂ hbody₂ hlast₂)
  rw [List.append_nil] at hread₂
  -- the first source, with the second one for its end
  obtain ⟨ys₁, hys₁, hread⟩ := reads_joined (z := semicolon :: (us₂ ++ [last])) (.inr hsemicolon)
    (.skip hsemicolon hread₂) hread₁ rfl (Moved.of_shapes hus₁ hbody₁ hlast₁)
  refine ⟨ys₁, ys₂, ?_, hys₁, hys₂⟩
  rw [parseTokens, supply_eq (t := last) (by simp) hlast, List.append_assoc]
  exact statements_eq_ok_iff.2 ⟨_, hread⟩

end Parser

/-! ### Expressions -/

namespace Tree

theorem unplaced_term_token (t : Token) : t.unplaced.term.unplaced = t.term.unplaced := by
  obtain ⟨k, v, p⟩ := t
  unfold Token.term Token.unplaced
  dsimp only
  split <;> rfl

mutual

/-- The expression that a tree denotes is that of the tree without places, but for its own. -/
theorem unplaced_term (x : Tree) : x.unplaced.term.unplaced = x.term.unplaced := by
  cases x with
  | leaf t => rw [unplaced, term, term, unplaced_term_token]
  | form t args =>
    rw [unplaced, term, term, Term.unplaced, Term.unplaced, unplacedAll_terms args]
    rfl

theorem unplacedAll_terms (xs : List Tree) :
    Term.unplacedAll (terms (unplacedAll xs)) = Term.unplacedAll (terms xs) := by
  cases xs with
  | nil => rfl
  | cons x xs =>
    rw [unplacedAll, terms, terms, Term.unplacedAll, Term.unplacedAll, unplaced_term x,
      unplacedAll_terms xs]

end

end Tree

/-- **A token with a value of its kind, a number only if it equals itself.** -/
def Token.Definite (t : Token) : Prop := t.Typed ∧ ∀ n, t.value = .num n → n.equal n = true

namespace Lexer

section

variable {known : List String} {ahead chars : List Char} {t : Token}

/-- The value of a token that is made of characters is the number of a literal, or else a text. -/
theorem value_of_lexeme (h : Lexeme known ahead chars t) :
    (t.kind = .number ∧ ∃ n, numberOf (NumberLiteral.scan ahead) = .ok n ∧ t.value = .num n) ∨
      t.kind ≠ .number ∧ ∃ s, t.value = .str s := by
  unfold Lexeme at h
  cases hk : t.kind with
  | number =>
    simp only [hk] at h
    obtain ⟨n, -, hn, hv⟩ := h
    exact .inl ⟨rfl, n, hn, hv⟩
  | string =>
    simp only [hk] at h
    obtain ⟨body, content, -, -, hv⟩ := h
    exact .inr ⟨nofun, _, hv⟩
  | atom =>
    simp only [hk] at h
    exact .inr ⟨nofun, _, h.2.2⟩
  | operator | mark =>
    simp only [hk] at h
    exact .inr ⟨nofun, _, h.2⟩
  | finish => simp [hk] at h

/-- Such a token is definite. -/
theorem definite_of_lexeme (h : Lexeme known ahead chars t) : t.Definite := by
  rcases value_of_lexeme h with ⟨hk, n, hn, hv⟩ | ⟨hk, s, hv⟩
  · refine ⟨by simp only [Token.Typed, hk]; exact ⟨n, hv⟩, fun m hm => ?_⟩
    obtain rfl : n = m := by simpa [hv] using hm
    exact equal_of_numberOf hn
  · refine ⟨?_, by simp [hv]⟩
    unfold Token.Typed
    split
    · contradiction
    · exact ⟨s, hv⟩
    · exact ⟨s, hv⟩
    · exact ⟨s, hv⟩
    · trivial
    · trivial

/-- Its number, if it has one, is short enough to be written out. -/
theorem writable_of_lexeme (h : Lexeme known ahead chars t) : t.value.writable = true := by
  rcases value_of_lexeme h with ⟨-, n, hn, hv⟩ | ⟨-, s, hv⟩ <;> rw [hv]
  · cases n with
    | int z =>
      obtain ⟨k, rfl, hlt⟩ := sound_of_numberOf hn
      simp [Term.writable, Num.writable, Num.intWritable, hlt]
    | float | nan => rfl
  · rfl

end

/-- All tokens of a text but its end are made of characters. -/
theorem lexeme_of_tiles {known : List String} {text : List Char} {first : Int} {start : Nat}
    {ts : List Token} (h : Tiles known text first start ts) :
    ∀ t ∈ ts, t.kind ≠ .finish → ∃ ahead chars, Lexeme known ahead chars t := by
  induction h with
  | finish =>
    intro t ht hk
    rw [List.mem_singleton.1 ht] at hk
    exact absurd rfl hk
  | token _ _ _ _ hlex _ _ ih => exact List.forall_mem_cons.2 ⟨fun _ => ⟨_, _, hlex⟩, ih⟩

end Lexer

namespace Tree

mutual

theorem Formed.isDefinite_term {x : Tree} (h : x.Formed) (ht : ∀ t ∈ x.tokens, t.Definite) :
    x.term.isDefinite = true := by
  cases h with
  | @leaf t hk =>
    obtain ⟨htyped, hequal⟩ := ht t (by simp)
    rcases hk with hk | hk | hk <;> simp only [Token.Typed, hk] at htyped <;>
      obtain ⟨v, hv⟩ := htyped <;> simp [term, Token.term, hk, hv, Term.isDefinite]
    exact hequal v hv
  | form _ hargs =>
    rw [term, Term.isDefinite]
    exact allDefinite_terms hargs fun t hx => ht t (by simp [hx])

/-- Trees in form of definite tokens denote definite expressions. -/
theorem allDefinite_terms {xs : List Tree} (h : ∀ x ∈ xs, x.Formed)
    (ht : ∀ t ∈ tokensAll xs, t.Definite) : Term.allDefinite (terms xs) = true := by
  match xs with
  | [] => rfl
  | x :: xs =>
    rw [terms, Term.allDefinite, (h x (by simp)).isDefinite_term fun t hx => ht t (by simp [hx]),
      allDefinite_terms (fun y hy => h y (by simp [hy])) fun t hx => ht t (by simp [hx])]
    rfl

end

/-- A token whose value can be written out denotes an expression that can. -/
theorem writable_token {t : Token} (h : t.value.writable = true) : t.term.writable = true := by
  unfold Token.term
  split
  · rename_i n _ hv
    rw [hv] at h
    exact h
  · rfl
  · rfl
  · exact h

mutual

theorem writable_term {x : Tree} (h : ∀ t ∈ x.tokens, t.value.writable = true) :
    x.term.writable = true := by
  cases x with
  | leaf t => exact writable_token (h t (by simp))
  | form t args =>
    rw [term, Term.writable]
    exact allWritable_terms fun u hu => h u (by simp [hu])

/-- Trees of tokens that can be written out denote expressions that can. -/
theorem allWritable_terms {xs : List Tree} (h : ∀ t ∈ tokensAll xs, t.value.writable = true) :
    Term.allWritable (terms xs) = true := by
  match xs with
  | [] => rfl
  | x :: xs =>
    rw [terms, Term.allWritable, writable_term fun t ht => h t (by simp [ht]),
      allWritable_terms fun t ht => h t (by simp [ht])]
    rfl

end

end Tree

namespace Parser

variable {p : Parser}

/-- **The expressions of a source are made of its characters**: they are those of trees in form,
each token of which is. -/
theorem trees_of_parse {source : String} {terms : List Term} (h : p.parse source = .ok terms) :
    ∃ xs, terms = Tree.terms xs ∧ (∀ x ∈ xs, x.Formed) ∧
      ∀ t ∈ Tree.tokensAll xs, ∃ ahead chars, Lexeme p.registry.operatorNames ahead chars t := by
  obtain ⟨ts, htokens, h⟩ := bind_eq_ok_iff.1 h
  obtain ⟨xs, hparse, h⟩ := bind_eq_ok_iff.1 h
  cases h
  obtain ⟨hfail, hscan⟩ := Lexer.tokens_eq_ok_iff.1 htokens
  have hlexeme := Lexer.lexeme_of_tiles
    (Lexer.tiles_of_scan (Cursor.stands_start source 1) hfail)
  rw [hscan] at hlexeme
  obtain ⟨body, pos, rfl, hbody⟩ := Lexer.exists_body_of_tokens htokens
  obtain ⟨hformed, hperm⟩ := perm_of_parseTokens hbody rfl hparse
  refine ⟨xs, rfl, hformed, fun t ht => ?_⟩
  have hmem := List.mem_of_mem_filter (hperm.mem_iff.1 ht)
  exact hlexeme t (List.mem_append_left _ hmem) (hbody t hmem)

/-- **Every expression of a source equals itself.** -/
theorem definite_of_parse {source : String} {terms : List Term} (h : p.parse source = .ok terms) :
    Term.allDefinite terms = true := by
  obtain ⟨xs, rfl, hformed, hlexeme⟩ := trees_of_parse h
  refine Tree.allDefinite_terms hformed fun t ht => ?_
  obtain ⟨_, _, ht⟩ := hlexeme t ht
  exact Lexer.definite_of_lexeme ht

/-- **Every number of a source is short enough to be written out.** -/
theorem allWritable_of_parse {source : String} {terms : List Term}
    (h : p.parse source = .ok terms) : Term.allWritable terms = true := by
  obtain ⟨xs, rfl, -, hlexeme⟩ := trees_of_parse h
  refine Tree.allWritable_terms fun t ht => ?_
  obtain ⟨_, _, ht⟩ := hlexeme t ht
  exact Lexer.writable_of_lexeme ht

theorem alike_terms {xs ys : List Tree} (h : List.Forall₂ Tree.Alike xs ys)
    (hxs : Term.allDefinite (Tree.terms xs) = true) :
    List.Forall₂ Term.Alike (Tree.terms xs) (Tree.terms ys) := by
  refine Term.Alike.all_of_unplaced hxs ?_
  rw [← Tree.unplacedAll_terms, Tree.unplacedAll_of_alike h, Tree.unplacedAll_terms]

/-- **A source joined to another by a semicolon on a new line** is parsed to the statements of the
first and then those of the second, but for their places. -/
theorem parse_append {s₁ s₂ : String} {ts₁ ts₂ : List Term} (h₁ : p.parse s₁ = .ok ts₁)
    (h₂ : p.parse s₂ = .ok ts₂) :
    ∃ us₁ us₂, p.parse (s₁ ++ "\n;" ++ s₂) = .ok (us₁ ++ us₂) ∧
      List.Forall₂ Term.Alike ts₁ us₁ ∧ List.Forall₂ Term.Alike ts₂ us₂ := by
  have hdefinite₁ := definite_of_parse h₁
  have hdefinite₂ := definite_of_parse h₂
  obtain ⟨tokens₁, htokens₁, h₁⟩ := bind_eq_ok_iff.1 h₁
  obtain ⟨xs₁, hparse₁, h₁⟩ := bind_eq_ok_iff.1 h₁
  cases h₁
  obtain ⟨tokens₂, htokens₂, h₂⟩ := bind_eq_ok_iff.1 h₂
  obtain ⟨xs₂, hparse₂, h₂⟩ := bind_eq_ok_iff.1 h₂
  cases h₂
  obtain ⟨body₁, body₂, vs₁, vs₂, pos₁, pos₂, pos, semicolon, rfl, rfl, hbody₁, hbody₂, hvs₁, hvs₂,
    hkind, htokens⟩ := Lexer.tokens_joined htokens₁ htokens₂
  have hend : (Token.ofEnd pos).kind = .finish := rfl
  obtain ⟨ys₁, ys₂, hparse, hys₁, hys₂⟩ :=
    parseTokens_joined hbody₁ hbody₂ rfl rfl hend hkind hvs₁ hvs₂ hparse₁ hparse₂
  refine ⟨Tree.terms ys₁, Tree.terms ys₂, ?_, alike_terms hys₁ hdefinite₁,
    alike_terms hys₂ hdefinite₂⟩
  refine bind_eq_ok_iff.2 ⟨_, htokens, bind_eq_ok_iff.2 ⟨_, hparse, ?_⟩⟩
  rw [Tree.terms_eq_map, Tree.terms_eq_map, Tree.terms_eq_map, List.map_append]
  rfl

end Parser

end TermCalc
