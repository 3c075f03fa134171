import TermCalc.Proofs.Syntax.Nodes
import TermCalc.Proofs.Syntax.Spelling

/-!
# Displaced tokens

A phrase is read alike wherever its tokens stand, and whatever stands behind it, as long as nothing
there goes on with it.

* `Tree.Alike`: trees that differ only in the places of their tokens.
* `Tree.Congruence`: a relation of trees that comes from one of tokens.
* `Displaced`: tokens for other tokens, one by one, and more of them for the end.
* `Parser.reads_displaced`: **a phrase within a statement is read alike from displaced tokens.**
* `Parser.reads_before`: in particular, an expression is read alike before every token that ends it.
-/

namespace TermCalc

/-! ### Places in trees -/

namespace Token

/-- A token without its place. -/
def unplaced (t : Token) : Token := { t with pos := .none }

variable {t u : Token}

theorem unplaced_eq_iff : t.unplaced = u.unplaced ↔ t.shape = u.shape := by
  obtain ⟨k, v, p⟩ := t
  obtain ⟨k', v', p'⟩ := u
  simp [unplaced, shape]

variable (h : t.shape = u.shape)
include h

theorem kind_eq : t.kind = u.kind := congrArg Prod.fst h

theorem spelling?_eq : t.spelling? = u.spelling? := by
  rw [spelling?, spelling?, kind_eq h, show t.value = u.value from congrArg Prod.snd h]

theorem spelledByList_eq : t.spelledByList = u.spelledByList := by
  rw [spelledByList, spelledByList, kind_eq h, show t.value = u.value from congrArg Prod.snd h]

end Token

namespace Tree

mutual

/-- A tree without places. -/
def unplaced : Tree → Tree
  | leaf t => leaf t.unplaced
  | form t args => form t.unplaced (unplacedAll args)

/-- Trees without places. -/
def unplacedAll : List Tree → List Tree
  | [] => []
  | t :: ts => unplaced t :: unplacedAll ts

end

/-- **Trees that differ only in places.** -/
def Alike (x y : Tree) : Prop := x.unplaced = y.unplaced

theorem unplacedAll_of_alike {xs ys : List Tree} (h : List.Forall₂ Alike xs ys) :
    unplacedAll xs = unplacedAll ys := by
  induction h with
  | nil => rfl
  | cons hx _ ih => rw [unplacedAll, unplacedAll, hx, ih]

theorem Alike.leaf {t u : Token} (h : t.shape = u.shape) : (leaf t).Alike (leaf u) := by
  rw [Alike, unplaced, unplaced, Token.unplaced_eq_iff.2 h]

theorem Alike.form {t u : Token} (h : t.shape = u.shape) {xs ys : List Tree}
    (hxs : List.Forall₂ Alike xs ys) : (form t xs).Alike (form u ys) := by
  rw [Alike, unplaced, unplaced, Token.unplaced_eq_iff.2 h, unplacedAll_of_alike hxs]

end Tree

/-- **A relation of trees** that comes from one of tokens that look the same to the parser. -/
structure Tree.Congruence (R : Token → Token → Prop) (A : Tree → Tree → Prop) : Prop where
  shape {t u : Token} : R t u → t.shape = u.shape
  leaf {t u : Token} : R t u → A (.leaf t) (.leaf u)
  form {t u : Token} {xs ys : List Tree} :
    R t u → List.Forall₂ A xs ys → A (.form t xs) (.form u ys)

theorem Tree.congruence_alike : Congruence (fun t u => t.shape = u.shape) Alike :=
  ⟨id, .leaf, fun h hxs => .form h hxs⟩

theorem Tree.congruence_eq : Congruence Eq Eq where
  shape h := h ▸ rfl
  leaf h := h ▸ rfl
  form ht hxs := by rw [ht, (congrFun₂ List.forall₂_eq_eq_eq _ _).mp hxs]

/-! ### Displaced tokens -/

/-- **Tokens for other tokens**, one by one, with tokens `z` for the end and all behind it. -/
inductive Displaced (R : Token → Token → Prop) (z : List Token) : List Token → List Token → Prop
  | finish {ts : List Token} : (Parser.current ts).kind = .finish → Displaced R z ts z
  | token {t u : Token} {ts us : List Token} :
      t.kind ≠ .finish → R t u → Displaced R z ts us → Displaced R z (t :: ts) (u :: us)

namespace Displaced

variable {R : Token → Token → Prop} {z ts us : List Token} {t : Token}

theorem cons (h : Displaced R z (t :: ts) us) (ht : t.kind ≠ .finish) :
    ∃ u us', us = u :: us' ∧ R t u ∧ Displaced R z ts us' := by
  cases h with
  | finish hk => exact absurd hk ht
  | token _ hR h => exact ⟨_, _, rfl, hR, h⟩

theorem current_cases (h : Displaced R z ts us) :
    (Parser.current ts).kind = .finish ∧ us = z ∨
      (Parser.current ts).kind ≠ .finish ∧ R (Parser.current ts) (Parser.current us) := by
  cases h with
  | finish hk => exact .inl ⟨hk, rfl⟩
  | token hk hR _ => exact .inr ⟨hk, hR⟩

theorem append {body bs rest : List Token} (h : List.Forall₂ R body bs)
    (hbody : ∀ t ∈ body, t.kind ≠ .finish) (hrest : (Parser.current rest).kind = .finish) :
    Displaced R z (body ++ rest) (bs ++ z) := by
  induction h with
  | nil => exact .finish hrest
  | cons htu _ ih =>
    obtain ⟨ht, hbody⟩ := List.forall_mem_cons.1 hbody
    exact .token ht htu (ih hbody)

variable (hR : ∀ {t u : Token}, R t u → t.shape = u.shape)
include hR

theorem mark {m : Mark} (h : Displaced R z (t :: ts) us) (ht : t.kind = .mark m) :
    ∃ u us', us = u :: us' ∧ u.kind = .mark m ∧ R t u ∧ Displaced R z ts us' := by
  obtain ⟨u, us', rfl, htu, h⟩ := h.cons (by simp [ht])
  exact ⟨u, us', rfl, (Token.kind_eq (hR htu)).symm.trans ht, htu, h⟩

theorem current_eq {k : TokenKind} (h : Displaced R z ts us) (hk : (Parser.current ts).kind = k)
    (hne : k ≠ .finish) : (Parser.current us).kind = k := by
  rcases h.current_cases with ⟨hend, -⟩ | ⟨-, htu⟩
  · exact absurd (hk.symm.trans hend) hne
  · rw [← Token.kind_eq (hR htu), hk]

/-- Where tokens are not at the end, they do not start with a mark that the others do not. -/
theorem current_ne {k : TokenKind} (h : Displaced R z ts us) (hk : (Parser.current ts).kind ≠ k)
    (hend : (Parser.current ts).kind = .finish → (Parser.current z).kind ≠ k) :
    (Parser.current us).kind ≠ k := by
  rcases h.current_cases with ⟨hfinish, rfl⟩ | ⟨-, htu⟩
  · exact hend hfinish
  · rwa [← Token.kind_eq (hR htu)]

end Displaced

/-! ### Phrases -/

/-- **Phrases within a statement.** -/
def Phrase.inner : Phrase → Prop
  | .statements => False
  | _ => True

/-- The same phrase, with a tree for another one in what has been read of it. -/
def Phrase.Over (A : Tree → Tree → Prop) : Phrase → Phrase → Prop
  | .operators lhs depth, f => ∃ lhs', f = .operators lhs' depth ∧ A lhs lhs'
  | g, f => f = g

namespace Parser

variable {p : Parser} {R : Token → Token → Prop} {A : Tree → Tree → Prop} {z : List Token}

theorem operatorAt?_eq {t u : Token} (h : t.shape = u.shape) (fixity : Fixity) :
    p.operatorAt? fixity t = p.operatorAt? fixity u := by
  rw [operatorAt?, operatorAt?, Token.spelling?_eq h]

theorem following?_eq {t u : Token} (h : t.shape = u.shape) (depth : Int) :
    p.following? t depth = p.following? u depth := by
  rw [following?, following?, operatorAt?_eq h, operatorAt?_eq h]

theorem ne_finish_of_items {closing : Mark} {ts rest : List Token} {xs : List Tree}
    (h : Reads p (.items closing) ts xs rest) : (current ts).kind ≠ .finish := by
  cases h with
  | lastItem _ _ h => exact (starts_of_reads h).1
  | item _ h _ => exact (starts_of_reads h).1

variable (hA : Tree.Congruence R A) (hz : (current z).Ends)
include hA hz

theorem Stops.displaced {depth : Int} {ts us : List Token} (hd : Displaced R z ts us)
    (h : p.Stops depth ts) : p.Stops depth us := by
  rcases hd.current_cases with ⟨-, rfl⟩ | ⟨-, htu⟩
  · exact hz.stops depth []
  · have hshape := hA.shape htu
    exact ⟨(Token.spelledByList_eq hshape).symm.trans h.1,
      (following?_eq hshape _).symm.trans h.2⟩

/-- **A phrase within a statement is read alike from displaced tokens.** -/
theorem reads_displaced {f : Phrase} {ts rest : List Token} {xs : List Tree}
    (h : Reads p f ts xs rest) : f.inner → ∀ {g us}, f.Over A g → Displaced R z ts us →
      ∃ ys rest', Reads p g us ys rest' ∧ List.Forall₂ A xs ys ∧ Displaced R z rest rest' := by
  -- in every case the tokens that the rule takes are found again, and then its parts are read alike
  induction h with
  | expression _ _ ih₁ ih₂ =>
    rintro - g us rfl hd
    obtain ⟨_, mid, hlhs, _ | ⟨hl, _ | _⟩, hmid⟩ := ih₁ trivial rfl hd
    obtain ⟨_, rest, hx, _ | ⟨hxs, _ | _⟩, hrest⟩ := ih₂ trivial ⟨_, rfl, hl⟩ hmid
    exact ⟨_, rest, .expression hlhs hx, .cons hxs .nil, hrest⟩
  | stop hstop =>
    rintro - g us ⟨lhs', rfl, hl⟩ hd
    exact ⟨_, us, .stop (hstop.displaced hA hz hd), .cons hl .nil, hd⟩
  | infixed hs hop hfixity hc _ _ ih₁ ih₂ =>
    rintro - g us ⟨lhs', rfl, hl⟩ hd
    obtain ⟨_, hat⟩ := operatorAt?_of_following? hop
    obtain ⟨u, us, rfl, htu, hd⟩ := hd.cons (ne_finish_of_operatorAt? hat)
    have hshape := hA.shape htu
    obtain ⟨_, mid, hrhs, _ | ⟨hr, _ | _⟩, hmid⟩ := ih₁ trivial rfl hd
    have hform := hA.form htu (.cons hl (.cons hr .nil))
    obtain ⟨_, rest, hx, _ | ⟨hxs, _ | _⟩, hrest⟩ := ih₂ trivial ⟨_, rfl, hform⟩ hmid
    rw [Token.spelledByList_eq hshape] at hs
    rw [following?_eq hshape] at hop
    exact ⟨_, rest, .infixed hs hop hfixity hc hrhs hx, .cons hxs .nil, hrest⟩
  | postfixed hs hop hfixity hc _ ih =>
    rintro - g us ⟨lhs', rfl, hl⟩ hd
    obtain ⟨_, hat⟩ := operatorAt?_of_following? hop
    obtain ⟨u, us, rfl, htu, hd⟩ := hd.cons (ne_finish_of_operatorAt? hat)
    have hshape := hA.shape htu
    have hform := hA.form htu (.cons hl .nil)
    obtain ⟨_, rest, hx, _ | ⟨hxs, _ | _⟩, hrest⟩ := ih trivial ⟨_, rfl, hform⟩ hd
    rw [Token.spelledByList_eq hshape] at hs
    rw [following?_eq hshape] at hop
    exact ⟨_, rest, .postfixed hs hop hfixity hc hx, .cons hxs .nil, hrest⟩
  | symbolPrefix hs hk hu hop hc _ _ ih₁ ih₂ =>
    rintro - g us rfl hd
    obtain ⟨t', us, rfl, htu, hd⟩ := hd.cons (by simp [hk])
    have hshape := hA.shape htu
    obtain ⟨u', us, rfl, hu', -, hd⟩ := hd.mark hA.shape hu
    obtain ⟨_, mid, hargs, _ | ⟨hfirst, _ | _⟩, hmid⟩ := ih₁ trivial rfl hd
    obtain ⟨_, rest, hx, _ | ⟨hxs, _ | _⟩, hrest⟩ := ih₂ trivial ⟨_, rfl, hfirst⟩ hmid
    rw [Token.spelledByList_eq hshape] at hs
    rw [Token.kind_eq hshape] at hk
    rw [operatorAt?_eq hshape] at hop
    exact ⟨_, rest, .symbolPrefix hs hk hu' hop hc hargs hx,
      .cons (hA.form htu (.cons hxs .nil)) .nil, hrest⟩
  | symbolCall hs hk hu hop _ ih =>
    rintro - g us rfl hd
    obtain ⟨t', us, rfl, htu, hd⟩ := hd.cons (by simp [hk])
    have hshape := hA.shape htu
    obtain ⟨u', us, rfl, hu', -, hd⟩ := hd.mark hA.shape hu
    obtain ⟨ys, rest, hargs, hys, hrest⟩ := ih trivial rfl hd
    rw [Token.spelledByList_eq hshape] at hs
    rw [Token.kind_eq hshape] at hk
    rw [operatorAt?_eq hshape, hys.length_eq] at hop
    exact ⟨_, rest, .symbolCall hs hk hu' hop hargs, .cons (hA.form htu hys) .nil, hrest⟩
  | prefixed hs hop hopen hc _ ih =>
    rintro - g us rfl hd
    obtain ⟨t', us, rfl, htu, hd⟩ := hd.cons (ne_finish_of_operatorAt? hop)
    have hshape := hA.shape htu
    obtain ⟨_, rest, hx, _ | ⟨hxs, _ | _⟩, hrest⟩ := ih trivial rfl hd
    rw [Token.spelledByList_eq hshape] at hs
    rw [operatorAt?_eq hshape] at hop
    have hopen := hd.current_ne hA.shape hopen fun _ => hz.ne_openParen []
    exact ⟨_, rest, .prefixed hs hop hopen hc hx, .cons (hA.form htu (.cons hxs .nil)) .nil, hrest⟩
  | literal hk =>
    rintro - g us rfl hd
    obtain ⟨t', us, rfl, htu, hd⟩ := hd.cons (by rcases hk with hk | hk <;> simp [hk])
    have hshape := hA.shape htu
    rw [Token.kind_eq hshape] at hk
    exact ⟨_, us, .literal hk, .cons (hA.leaf htu) .nil, hd⟩
  | name hs hk hop hopen =>
    rintro - g us rfl hd
    obtain ⟨t', us, rfl, htu, hd⟩ := hd.cons (by simp [hk])
    have hshape := hA.shape htu
    rw [Token.spelledByList_eq hshape] at hs
    rw [Token.kind_eq hshape] at hk
    rw [operatorAt?_eq hshape] at hop
    have hopen := hd.current_ne hA.shape hopen fun _ => hz.ne_openParen []
    exact ⟨_, us, .name hs hk hop hopen, .cons (hA.leaf htu) .nil, hd⟩
  | call hs hk hu hop _ ih =>
    rintro - g us rfl hd
    obtain ⟨t', us, rfl, htu, hd⟩ := hd.cons (by simp [hk])
    have hshape := hA.shape htu
    obtain ⟨u', us, rfl, hu', -, hd⟩ := hd.mark hA.shape hu
    obtain ⟨ys, rest, hargs, hys, hrest⟩ := ih trivial rfl hd
    rw [Token.spelledByList_eq hshape] at hs
    rw [Token.kind_eq hshape] at hk
    rw [operatorAt?_eq hshape] at hop
    exact ⟨_, rest, .call hs hk hu' hop hargs, .cons (hA.form htu hys) .nil, hrest⟩
  | bodied hs hk hu hop hc _ _ ih₁ ih₂ =>
    rintro - g us rfl hd
    obtain ⟨t', us, rfl, htu, hd⟩ := hd.cons (by simp [hk])
    have hshape := hA.shape htu
    obtain ⟨u', us, rfl, hu', -, hd⟩ := hd.mark hA.shape hu
    obtain ⟨ys, mid, hargs, hys, hmid⟩ := ih₁ trivial rfl hd
    obtain ⟨_, rest, hbody, _ | ⟨hb, _ | _⟩, hrest⟩ := ih₂ trivial rfl hmid
    rw [Token.spelledByList_eq hshape] at hs
    rw [Token.kind_eq hshape] at hk
    rw [operatorAt?_eq hshape] at hop
    exact ⟨_, rest, .bodied hs hk hu' hop hc hargs hbody,
      .cons (hA.form htu (List.rel_append hys (.cons hb .nil))) .nil, hrest⟩
  | parens hk hu _ ih =>
    rintro - g us rfl hd
    obtain ⟨t', us, rfl, hk', -, hd⟩ := hd.mark hA.shape hk
    obtain ⟨_, mid, hx, _ | ⟨hxs, _ | _⟩, hmid⟩ := ih trivial rfl hd
    obtain ⟨u', rest, rfl, hu', -, hrest⟩ := hmid.mark hA.shape hu
    exact ⟨_, rest, .parens hk' hu' hx, .cons hxs .nil, hrest⟩
  | braces hk _ ih =>
    rintro - g us rfl hd
    obtain ⟨t', us, rfl, hk', htu, hd⟩ := hd.mark hA.shape hk
    obtain ⟨ys, rest, hargs, hys, hrest⟩ := ih trivial rfl hd
    exact ⟨_, rest, .braces hk' hargs, .cons (hA.form htu hys) .nil, hrest⟩
  | brackets hk _ ih =>
    rintro - g us rfl hd
    obtain ⟨t', us, rfl, hk', htu, hd⟩ := hd.mark hA.shape hk
    obtain ⟨ys, rest, hbody, hys, hrest⟩ := ih trivial rfl hd
    exact ⟨_, rest, .brackets hk' hbody, .cons (hA.form htu hys) .nil, hrest⟩
  | noArguments hk =>
    rintro - g us rfl hd
    obtain ⟨t', us, rfl, hk', -, hd⟩ := hd.mark hA.shape hk
    exact ⟨[], us, .noArguments hk', .nil, hd⟩
  | someArguments hk hread ih =>
    rintro - g us rfl hd
    obtain ⟨ys, rest, hargs, hys, hrest⟩ := ih trivial rfl hd
    have hk := hd.current_ne hA.shape hk fun hend => absurd hend (ne_finish_of_items hread)
    exact ⟨ys, rest, .someArguments hk hargs, hys, hrest⟩
  | lastItem hcomma hk _ ih =>
    rintro - g us rfl hd
    obtain ⟨_, mid, hx, _ | ⟨hxs, _ | _⟩, hmid⟩ := ih trivial rfl hd
    obtain ⟨u', rest, rfl, hk', -, hrest⟩ := hmid.mark hA.shape hk
    exact ⟨_, rest, .lastItem hcomma hk' hx, .cons hxs .nil, hrest⟩
  | item hk _ _ ih₁ ih₂ =>
    rintro - g us rfl hd
    obtain ⟨_, mid, hx, _ | ⟨hxs, _ | _⟩, hmid⟩ := ih₁ trivial rfl hd
    obtain ⟨u', mid, rfl, hk', -, hmid⟩ := hmid.mark hA.shape hk
    obtain ⟨ys, rest, hmore, hys, hrest⟩ := ih₂ trivial rfl hmid
    exact ⟨_, rest, .item hk' hx hmore, .cons hxs hys, hrest⟩
  | endBlock hk =>
    rintro - g us rfl hd
    obtain ⟨t', us, rfl, hk', -, hd⟩ := hd.mark hA.shape hk
    exact ⟨[], us, .endBlock hk', .nil, hd⟩
  | skipInBlock hk _ ih =>
    rintro - g us rfl hd
    obtain ⟨t', us, rfl, hk', -, hd⟩ := hd.mark hA.shape hk
    obtain ⟨ys, rest, hbody, hys, hrest⟩ := ih trivial rfl hd
    exact ⟨ys, rest, .skipInBlock hk' hbody, hys, hrest⟩
  | blockStatement hclose hfinish hsemi _ hsep _ ih₁ ih₂ =>
    rintro - g us rfl hd
    obtain ⟨t', us, rfl, htu, hd⟩ := hd.cons hfinish
    have hshape := hA.shape htu
    obtain ⟨_, mid, hx, _ | ⟨hxs, _ | _⟩, hmid⟩ := ih₁ trivial rfl (.token hfinish htu hd)
    obtain ⟨ys, rest, hmore, hys, hrest⟩ := ih₂ trivial rfl hmid
    rw [Token.kind_eq hshape] at hclose hfinish hsemi
    refine ⟨_, rest, .blockStatement hclose hfinish hsemi hx ?_ hmore, .cons hxs hys, hrest⟩
    exact hsep.imp (fun hk => hmid.current_eq hA.shape hk nofun)
      fun hk => hmid.current_eq hA.shape hk nofun
  | finish | skip | statement => exact False.elim

omit hA hz in
/-- **An expression is read alike before every token that ends it.** -/
theorem reads_before {d : Int} {body more : List Token} {e s : Token} {x : Tree}
    (h : Reads p (.expression d) (body ++ [e]) [x] [e]) (he : e.kind = .finish) (hs : s.Ends) :
    Reads p (.expression d) (body ++ s :: more) [x] (s :: more) := by
  obtain ⟨us, hsplit, hus⟩ := takes_of_reads h
  obtain rfl := List.append_cancel_right hsplit
  have hd : Displaced Eq (s :: more) (body ++ [e]) (body ++ s :: more) :=
    .append (List.forall₂_same.2 fun _ _ => rfl) hus he
  obtain ⟨_, _, hread, _ | ⟨rfl, _ | _⟩, hrest⟩ :=
    reads_displaced (z := s :: more) Tree.congruence_eq hs h trivial rfl hd
  obtain ⟨-, rfl⟩ | ⟨hne, -⟩ := hrest.current_cases
  · exact hread
  · exact absurd he hne

end Parser

end TermCalc
