import Mathlib.Logic.Relation
import McdocSchema.TokenStream

/-!
# Grammars over tokens

A grammar gives each of its rules an expression: tokens, rules, sequences, alternatives and repetitions.
`Ebnf.Derives` says which lists of tokens an expression stands for. For parsers the same relation is needed
in a second form: `Ebnf.Spans e ts rest` says that the tokens in front of `rest` are derived from `e`.
-/

namespace McdocSchema

/-- An expression of a grammar whose rules are named by `N`. -/
inductive Ebnf (N : Type)
  | empty
  | token (accepts : Token → Bool)
  | rule (name : N)
  | seq (first second : Ebnf N)
  | alt (left right : Ebnf N)
  | many (item : Ebnf N)

namespace Ebnf

variable {N : Type}

instance : Append (Ebnf N) := ⟨seq⟩

instance : OrOp (Ebnf N) := ⟨alt⟩

def kind (k : Token.Kind) : Ebnf N := token fun t => t.kind == k

/-- The expression or nothing. -/
def opt (e : Ebnf N) : Ebnf N := e ||| empty

/-- The expression once or more often. -/
def oneOrMore (e : Ebnf N) : Ebnf N := e ++ many e

/-- Any number of items with commas between them, and perhaps one behind the last item. -/
def commaList (e : Ebnf N) : Ebnf N :=
  opt (e ++ many (kind .comma ++ e) ++ opt (kind .comma))

/-- The lists of tokens that an expression stands for, under the rules of a grammar. -/
inductive Derives (rules : N → Ebnf N) : Ebnf N → List Token → Prop
  | empty : Derives rules .empty []
  | token {accepts : Token → Bool} {t : Token} (h : accepts t = true) :
      Derives rules (.token accepts) [t]
  | rule {n : N} {w : List Token} (h : Derives rules (rules n) w) : Derives rules (.rule n) w
  | seq {a b : Ebnf N} {u v : List Token} (hu : Derives rules a u) (hv : Derives rules b v) :
      Derives rules (.seq a b) (u ++ v)
  | left {a b : Ebnf N} {w : List Token} (h : Derives rules a w) : Derives rules (.alt a b) w
  | right {a b : Ebnf N} {w : List Token} (h : Derives rules b w) : Derives rules (.alt a b) w
  | manyNil {a : Ebnf N} : Derives rules (.many a) []
  | manyCons {a : Ebnf N} {u v : List Token} (hu : Derives rules a u)
      (hv : Derives rules (.many a) v) : Derives rules (.many a) (u ++ v)

/-! ## Tokens in front of a rest -/

/-- The tokens of `ts` in front of `rest` are derived from an expression. -/
def Spans (rules : N → Ebnf N) (e : Ebnf N) (ts rest : TokenStream) : Prop :=
  ∃ w, ts = w ++ rest ∧ Derives rules e w

variable {rules : N → Ebnf N} {a b e : Ebnf N} {ts mid rest : TokenStream}

theorem spans_nil_iff {w : List Token} : Spans rules e w [] ↔ Derives rules e w := by
  simp [Spans]

theorem Spans.length_le (h : Spans rules e ts rest) : rest.length ≤ ts.length := by
  obtain ⟨w, rfl, -⟩ := h
  simp

@[simp] theorem spans_empty_iff : Spans rules .empty ts rest ↔ ts = rest := by
  constructor
  · rintro ⟨w, rfl, hw⟩
    cases hw
    rfl
  · rintro rfl
    exact ⟨[], rfl, .empty⟩

@[simp] theorem spans_token_iff {accepts : Token → Bool} :
    Spans rules (.token accepts) ts rest ↔ ∃ t, ts = t :: rest ∧ accepts t = true := by
  constructor
  · rintro ⟨w, rfl, hw⟩
    cases hw with
    | token h => exact ⟨_, rfl, h⟩
  · rintro ⟨t, rfl, ht⟩
    exact ⟨[t], rfl, .token ht⟩

@[simp] theorem spans_kind_iff {k : Token.Kind} :
    Spans rules (kind k) ts rest ↔ ∃ t, ts = t :: rest ∧ t.kind = k := by
  simp [kind]

theorem spans_rule_iff {n : N} :
    Spans rules (.rule n) ts rest ↔ Spans rules (rules n) ts rest := by
  constructor
  · rintro ⟨w, rfl, hw⟩
    cases hw with
    | rule h => exact ⟨w, rfl, h⟩
  · rintro ⟨w, rfl, hw⟩
    exact ⟨w, rfl, .rule hw⟩

@[simp] theorem spans_append_iff :
    Spans rules (a ++ b) ts rest ↔ ∃ mid, Spans rules a ts mid ∧ Spans rules b mid rest := by
  constructor
  · rintro ⟨w, rfl, hw⟩
    cases hw with
    | @seq _ _ u v hu hv => exact ⟨v ++ rest, ⟨u, by simp, hu⟩, ⟨v, rfl, hv⟩⟩
  · rintro ⟨mid, ⟨u, rfl, hu⟩, ⟨v, rfl, hv⟩⟩
    exact ⟨u ++ v, by simp, .seq hu hv⟩

theorem Spans.append (ha : Spans rules a ts mid) (hb : Spans rules b mid rest) :
    Spans rules (a ++ b) ts rest :=
  spans_append_iff.2 ⟨mid, ha, hb⟩

theorem Spans.assoc {c : Ebnf N} (h : Spans rules (a ++ (b ++ c)) ts rest) :
    Spans rules (a ++ b ++ c) ts rest := by
  obtain ⟨mid, ha, hbc⟩ := spans_append_iff.1 h
  obtain ⟨last, hb, hc⟩ := spans_append_iff.1 hbc
  exact (ha.append hb).append hc

@[simp] theorem spans_or_iff :
    Spans rules (a ||| b) ts rest ↔ Spans rules a ts rest ∨ Spans rules b ts rest := by
  constructor
  · rintro ⟨w, rfl, hw⟩
    cases hw with
    | left h => exact .inl ⟨w, rfl, h⟩
    | right h => exact .inr ⟨w, rfl, h⟩
  · rintro (⟨w, rfl, hw⟩ | ⟨w, rfl, hw⟩)
    · exact ⟨w, rfl, .left hw⟩
    · exact ⟨w, rfl, .right hw⟩

@[simp] theorem spans_opt_iff :
    Spans rules (opt e) ts rest ↔ Spans rules e ts rest ∨ ts = rest := by
  simp [opt]

theorem Spans.left (h : Spans rules a ts rest) : Spans rules (a ||| b) ts rest :=
  spans_or_iff.2 (.inl h)

theorem Spans.right (h : Spans rules b ts rest) : Spans rules (a ||| b) ts rest :=
  spans_or_iff.2 (.inr h)

theorem Spans.opt (h : Spans rules e ts rest) : Spans rules (Ebnf.opt e) ts rest :=
  spans_opt_iff.2 (.inl h)

theorem spans_opt_nil (rest : TokenStream) : Spans rules (Ebnf.opt e) rest rest :=
  spans_opt_iff.2 (.inr rfl)

/-- The items of a repetition follow each other. -/
theorem spans_many_iff :
    Spans rules (.many e) ts rest ↔ Relation.ReflTransGen (Spans rules e) ts rest := by
  constructor
  · rintro ⟨w, rfl, hw⟩
    -- The derivation of a repetition is a list of derivations of its item.
    generalize he : Ebnf.many e = m at hw
    induction hw with
    | manyNil => exact .refl
    | @manyCons a u v hu hv _ ih =>
      cases he
      have hv' := ih rfl
      rw [List.append_assoc]
      exact .head ⟨u, rfl, hu⟩ hv'
    | _ => cases he
  · intro h
    induction h using Relation.ReflTransGen.head_induction_on with
    | refl => exact ⟨[], rfl, .manyNil⟩
    | head h _ ih =>
      obtain ⟨u, rfl, hu⟩ := h
      obtain ⟨v, rfl, hv⟩ := ih
      exact ⟨u ++ v, by simp, .manyCons hu hv⟩

theorem spans_many_nil (rest : TokenStream) : Spans rules (.many e) rest rest :=
  spans_many_iff.2 .refl

theorem Spans.many_cons (h : Spans rules e ts mid)
    (hm : Spans rules (.many e) mid rest) : Spans rules (.many e) ts rest :=
  spans_many_iff.2 (.head h (spans_many_iff.1 hm))

theorem spans_many_iff_cons :
    Spans rules (.many e) ts rest ↔
      ts = rest ∨ ∃ mid, Spans rules e ts mid ∧ Spans rules (.many e) mid rest := by
  simp only [spans_many_iff]
  rw [Relation.ReflTransGen.cases_head_iff]

theorem Spans.many_append (h : Spans rules (.many e) ts mid) (hm : Spans rules (.many e) mid rest) :
    Spans rules (.many e) ts rest :=
  spans_many_iff.2 ((spans_many_iff.1 h).trans (spans_many_iff.1 hm))

theorem spans_many_kind_iff {k : Token.Kind} :
    Spans rules (.many (kind k)) ts rest ↔
      ∃ run, ts = run ++ rest ∧ ∀ t ∈ run, t.kind = k := by
  rw [spans_many_iff]
  constructor
  · intro h
    induction h using Relation.ReflTransGen.head_induction_on with
    | refl => exact ⟨[], rfl, by simp⟩
    | head h _ ih =>
      obtain ⟨t, rfl, ht⟩ := spans_kind_iff.1 h
      obtain ⟨run, rfl, hrun⟩ := ih
      exact ⟨t :: run, rfl, by simpa using ⟨ht, hrun⟩⟩
  · rintro ⟨run, rfl, hrun⟩
    induction run with
    | nil => exact .refl
    | cons t run ih =>
      have ht := hrun t List.mem_cons_self
      exact .head (spans_kind_iff.2 ⟨t, rfl, ht⟩) (ih fun u hu => hrun u (List.mem_cons_of_mem t hu))

/-! ## First tokens -/

/-- What an expression derives is not empty and starts with a token whose kind satisfies `P`. -/
def Starts (rules : N → Ebnf N) (e : Ebnf N) (P : Token.Kind → Prop) : Prop :=
  ∀ ts rest : TokenStream, Spans rules e ts rest → P ts.current.kind ∧ rest.length < ts.length

variable {P Q : Token.Kind → Prop}

theorem starts_token {accepts : Token → Bool} (h : ∀ t, accepts t = true → P t.kind) :
    Starts rules (.token accepts) P := by
  intro ts rest hs
  obtain ⟨t, rfl, ht⟩ := spans_token_iff.1 hs
  exact ⟨h t ht, by simp⟩

theorem starts_kind {k : Token.Kind} (h : P k) : Starts rules (kind k) P := by
  apply starts_token
  intro t ht
  rwa [eq_of_beq ht]

theorem Starts.rule {n : N} (h : Starts rules (rules n) P) : Starts rules (.rule n) P := by
  intro ts rest hs
  exact h ts rest (spans_rule_iff.1 hs)

theorem Starts.append (h : Starts rules a P) : Starts rules (a ++ b) P := by
  intro ts rest hs
  obtain ⟨mid, ha, hb⟩ := spans_append_iff.1 hs
  obtain ⟨hP, hlt⟩ := h ts mid ha
  exact ⟨hP, Nat.lt_of_le_of_lt hb.length_le hlt⟩

theorem Starts.or (ha : Starts rules a P) (hb : Starts rules b P) :
    Starts rules (a ||| b) P := by
  intro ts rest hs
  rcases spans_or_iff.1 hs with h | h
  · exact ha ts rest h
  · exact hb ts rest h

theorem Starts.opt_append (ha : Starts rules a P) (hb : Starts rules b P) :
    Starts rules (opt a ++ b) P := by
  intro ts rest hs
  obtain ⟨mid, ho, hr⟩ := spans_append_iff.1 hs
  rcases spans_opt_iff.1 ho with h | rfl
  · exact ha.append ts rest (spans_append_iff.2 ⟨mid, h, hr⟩)
  · exact hb ts rest hr

theorem Starts.mono (h : Starts rules e P) (hPQ : ∀ k, P k → Q k) : Starts rules e Q := by
  intro ts rest hs
  obtain ⟨hP, hlt⟩ := h ts rest hs
  exact ⟨hPQ _ hP, hlt⟩

end Ebnf

end McdocSchema
