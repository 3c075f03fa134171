import TermCalc.Proofs.Syntax.Joining

/-!
# Sources in brackets

The statements of a source are those of a block around it. Two loops read them, with separators and
an end of their own, and they take the same sequences.

* `Parser.reads_block`: **the statements before an end are read alike before a closing bracket.**
* `Parser.parse_enclosed`: a source within brackets is one block of its statements.
-/

namespace TermCalc

open Lexer (passes_between exists_of_between tokens_of_passes exists_body_of_tokens)

namespace Parser

variable {p : Parser}

/-- No expression starts with a closing bracket. -/
theorem ne_closeBracket_of_reads {d : Int} {t : Token} {ts rest : List Token} {xs : List Tree}
    (h : Reads p (.expression d) (t :: ts) xs rest) : t.kind ≠ .mark .closeBracket := by
  intro hk
  simpa using (starts_of_reads h).2 .closeBracket hk

/-- **Statements are read alike in a block**, up to the bracket that stands for the end. -/
theorem reads_block {close : Token} {zs : List Token} (hclose : close.kind = .mark .closeBracket)
    {f : Phrase} {ts rest : List Token} {xs : List Tree} (h : Reads p f ts xs rest)
    (hf : f = .statements) {us : List Token} (hd : Moved (close :: zs) ts us) :
    ∃ ys, List.Forall₂ Tree.Alike xs ys ∧ Reads p .block us ys zs := by
  have hends : (current (close :: zs)).Ends := Token.ends_of_mark hclose (by decide)
  induction h generalizing us with
  | finish hk =>
    rcases hd.current_cases with ⟨-, rfl⟩ | ⟨hne, -⟩
    · exact ⟨[], .nil, .endBlock hclose⟩
    · exact absurd hk hne
  | skip hk _ ih =>
    obtain ⟨t', us, rfl, hk', -, hd⟩ := hd.mark id hk
    obtain ⟨ys, hys, hread⟩ := ih rfl hd
    exact ⟨ys, hys, .skipInBlock hk' hread⟩
  | statement hfinish hsemi hx hsep _ _ ih =>
    obtain ⟨t', us, rfl, hshape, hd⟩ := hd.cons hfinish
    obtain ⟨_, mid, hx', _ | ⟨hxs, _ | _⟩, hmid⟩ :=
      reads_displaced Tree.congruence_alike hends hx trivial rfl (.token hfinish hshape hd)
    obtain ⟨ys, hys, hread⟩ := ih rfl hmid
    -- what separated the statement from the end or from the next one does so in the block
    have hsep' : (current mid).kind = .mark .closeBracket ∨
        (current mid).kind = .mark .semicolon := by
      rcases hmid.current_cases with ⟨-, rfl⟩ | ⟨hne, hsame⟩
      · exact .inl hclose
      · rw [← Token.kind_eq hsame]
        exact .inr (hsep.resolve_left hne)
    rw [Token.kind_eq hshape] at hfinish hsemi
    exact ⟨_, .cons hxs hys,
      .blockStatement (ne_closeBracket_of_reads hx') hfinish hsemi hx' hsep' hread⟩
  | _ => cases hf

/-- **A source within brackets** is parsed to one block of its statements, but for their places. -/
theorem parse_enclosed {source : String} {ts : List Term} (h : p.parse source = .ok ts) :
    ∃ us pos, p.parse ("[" ++ source ++ "\n]") = .ok [.form "Prog" us pos] ∧
      List.Forall₂ Term.Alike ts us := by
  have hdefinite := definite_of_parse h
  obtain ⟨tokens, htokens, h⟩ := bind_eq_ok_iff.1 h
  obtain ⟨xs, hparse, h⟩ := bind_eq_ok_iff.1 h
  cases h
  obtain ⟨body, pos, rfl, hbody⟩ := exists_body_of_tokens htokens
  have hread := (reads_of_parseTokens hbody rfl).1 hparse
  obtain ⟨us, finish, htokens', hus⟩ :=
    tokens_of_passes (passes_between htokens .openBracket .closeBracket [])
  obtain ⟨opening, vs, closing, rfl, hopen, hvs, hclose⟩ := exists_of_between hus
  have hend : (Token.ofEnd finish).Ends := .inl rfl
  have hmoved : Moved [closing, .ofEnd finish] (body ++ [.ofEnd pos])
      (vs ++ [closing, .ofEnd finish]) := Moved.of_shapes hvs hbody rfl
  obtain ⟨ys, hys, hblock⟩ := reads_block hclose hread rfl hmoved
  have htext : "[" ++ source ++ "\n]" = String.ofList (Mark.openBracket.char ::
      (source.toList ++ ['\n', Mark.closeBracket.char])) := by
    simp [← String.toList_inj, Mark.char]
  have hexpression : Reads p (.expression loosest) (opening :: (vs ++ [closing]) ++ [.ofEnd finish])
      [.form opening ys] [.ofEnd finish] := by
    refine .expression (.brackets hopen ?_) (.stop (hend.stops _ _))
    simpa using hblock
  have hname : opening.operatorName = "Prog" := by simp [Token.operatorName, Token.head, hopen]
  refine ⟨Tree.terms ys, opening.pos, ?_, alike_terms hys hdefinite⟩
  rw [htext, ← hname]
  exact parse_of_reads htokens' rfl hexpression

end Parser

end TermCalc
