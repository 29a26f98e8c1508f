import Mathlib.Logic.Basic
import McdocSchema.Declaration.Parser

/-!
# Successful runs of the parsers

What a parser that succeeds has passed and what it gives. The primitive parsers and the ways to put
parsers together are described by equivalences. Repetition is described by `Parse.Chain`: the rounds follow
each other, and behind the last one the repetition does not go on. A chain is all that a repetition can be
(`chain_of_repeatWhile`), and it is run if there are rounds enough for it (`Chain.repeatWhile`).
-/

namespace McdocSchema

namespace TokenStream

/-- The end of the text is the last token, and no token before it. -/
def Ended (ts : TokenStream) : Prop :=
  ∃ front last, ts = front ++ [last] ∧ last.kind = .eof ∧ ∀ t ∈ front, t.kind ≠ .eof

@[simp] theorem current_cons (t : Token) (rest : TokenStream) : current (t :: rest) = t := rfl

theorem behind_cons {t : Token} {rest : TokenStream} (h : rest ≠ []) :
    behind (t :: rest) = rest := by
  cases rest with
  | nil => exact absurd rfl h
  | cons u rest => rfl

theorem Ended.ne_nil {ts : TokenStream} (h : Ended ts) : ts ≠ [] := by
  obtain ⟨front, last, rfl, -, -⟩ := h
  simp

theorem Ended.behind {ts : TokenStream} (h : Ended ts) (hk : ts.current.kind ≠ .eof) :
    ts = ts.current :: ts.behind ∧ Ended ts.behind := by
  obtain ⟨front, last, rfl, hlast, hfront⟩ := h
  cases front with
  | nil => exact absurd hlast hk
  | cons t front =>
    have hne : front ++ [last] ≠ [] := by simp
    have hb : TokenStream.behind (t :: front ++ [last]) = front ++ [last] := behind_cons hne
    rw [hb]
    exact ⟨rfl, front, last, rfl, hlast, fun u hu => hfront u (List.mem_cons_of_mem t hu)⟩

theorem Ended.tail {t : Token} {rest : TokenStream} (h : Ended (t :: rest)) (hk : t.kind ≠ .eof) :
    Ended rest := by
  obtain ⟨hts, hb⟩ := Ended.behind h hk
  rw [current_cons, List.cons_inj_right] at hts
  rwa [← hts] at hb

theorem Ended.of_append {front rest : TokenStream} (h : Ended (front ++ rest))
    (hf : ∀ t ∈ front, t.kind ≠ .eof) : Ended rest := by
  induction front with
  | nil => exact h
  | cons t front ih =>
    have ht := hf t List.mem_cons_self
    exact ih (Ended.tail h ht) fun u hu => hf u (List.mem_cons_of_mem t hu)

end TokenStream

open TokenStream

namespace Parse

variable {α β : Type} {p q : Parse α} {a : α} {b : β} {k : Token.Kind} {t : Token}
  {ts mid rest : TokenStream}

/-! ## Putting parsers together -/

@[simp] theorem pure_done_iff {x : α} :
    (pure x : Parse α) ts = .done a rest ↔ x = a ∧ ts = rest := by
  rw [pure_apply, Outcome.done.injEq]

theorem bind_done_iff {f : α → Parse β} :
    (p >>= f) ts = .done b rest ↔ ∃ a mid, p ts = .done a mid ∧ f a mid = .done b rest := by
  rw [bind_apply]
  cases p ts with
  | done x next =>
    constructor
    · intro hf
      exact ⟨x, next, rfl, hf⟩
    · rintro ⟨_, _, hx, hf⟩
      cases hx
      exact hf
  | failed fault next => simp

/-- The first parser's run, when it succeeds, can be left out. -/
theorem bind_of_done {f : α → Parse β} (h : p ts = .done a mid) : (p >>= f) ts = f a mid := by
  rw [bind_apply, h]

theorem map_done_iff {f : α → β} :
    (f <$> p) ts = .done b rest ↔ ∃ a, p ts = .done a rest ∧ f a = b := by
  have hm : (f <$> p) = p >>= fun x => pure (f x) := rfl
  rw [hm, bind_done_iff]
  constructor
  · rintro ⟨a, mid, ha, hb⟩
    obtain ⟨rfl, rfl⟩ := pure_done_iff.1 hb
    exact ⟨a, ha, rfl⟩
  · rintro ⟨a, ha, rfl⟩
    exact ⟨a, rest, ha, rfl⟩

theorem map_of_done {f : α → β} (h : p ts = .done a rest) : (f <$> p) ts = .done (f a) rest :=
  map_done_iff.2 ⟨a, h, rfl⟩

theorem discard_bind_done_iff {f : Unit → Parse β} :
    (discard p >>= f) ts = .done b rest ↔ ∃ a mid, p ts = .done a mid ∧ f () mid = .done b rest := by
  have hd : (discard p : Parse Unit) = (fun _ => ()) <$> p := rfl
  rw [hd, bind_done_iff]
  constructor
  · rintro ⟨_, mid, hm, hf⟩
    obtain ⟨a, ha, -⟩ := map_done_iff.1 hm
    exact ⟨a, mid, ha, hf⟩
  · rintro ⟨a, mid, ha, hf⟩
    exact ⟨(), mid, map_of_done ha, hf⟩

theorem discard_bind_of_done {f : Unit → Parse β} (h : p ts = .done a mid) :
    (discard p >>= f) ts = f () mid := by
  have hd : (discard p : Parse Unit) = (fun _ => ()) <$> p := rfl
  rw [hd, bind_of_done (map_of_done h)]

/-! ## Single tokens -/

variable {f : Bool → Parse β}

theorem current_bind {f : Token → Parse β} : (current >>= f) ts = f ts.current ts := rfl

theorem advance_bind {f : Unit → Parse β} : (advance >>= f) ts = f () ts.behind := rfl

theorem sees_bind : (sees k >>= f) ts = f (ts.current.kind == k) ts := rfl

theorem eat_bind_of_eq (h : ts.current.kind = k) :
    (eat k >>= f) ts = f true ts.behind := by
  have he : eat k ts = .done true ts.behind := by simp [eat, h]
  rw [bind_of_done he]

theorem eat_bind_of_ne (h : ts.current.kind ≠ k) :
    (eat k >>= f) ts = f false ts := by
  have he : eat k ts = .done false ts := by simp [eat, h]
  rw [bind_of_done he]

theorem eat_bind_eq :
    (eat k >>= f) = (sees k >>= fun seen => if seen then advance >>= fun _ => f true else f false) := by
  funext ts
  by_cases hk : ts.current.kind = k
  · rw [eat_bind_of_eq hk, sees_bind, if_pos (by simpa using hk), advance_bind]
  · rw [eat_bind_of_ne hk, sees_bind, if_neg (by simpa using hk)]

theorem eat_bind_ite :
    (eat k >>= fun eaten => if eaten then pure true else pure false : Parse Bool) = eat k := by
  funext ts
  rw [bind_apply]
  cases eat k ts with
  | done eaten rest => cases eaten <;> rfl
  | failed fault rest => rfl

theorem consumeOr_done_iff {cause : Token.Kind → ParseCause} :
    consumeOr k cause ts = .done t rest ↔
      ts.current.kind = k ∧ ts.current = t ∧ ts.behind = rest := by
  by_cases h : ts.current.kind = k
  · simp [consumeOr, h]
  · simp [consumeOr, h]

theorem consume_done_iff :
    consume k ts = .done t rest ↔ ts.current.kind = k ∧ ts.current = t ∧ ts.behind = rest :=
  consumeOr_done_iff

theorem consume_cons (hk : t.kind = k) (hr : rest ≠ []) : consume k (t :: rest) = .done t rest :=
  consume_done_iff.2 ⟨hk, rfl, behind_cons hr⟩

theorem consumeOr_cons {cause : Token.Kind → ParseCause} (hk : t.kind = k) (hr : rest ≠ []) :
    consumeOr k cause (t :: rest) = .done t rest :=
  consumeOr_done_iff.2 ⟨hk, rfl, behind_cons hr⟩

/-! ## Repetition -/

theorem skipNewlines_of_ne (h : ts.current.kind ≠ .newline) : skipNewlines ts = .done () ts := by
  match ts with
  | [] => rfl
  | [t] => simpa [skipNewlines] using h
  | t :: u :: ts =>
    rw [current_cons] at h
    simp [skipNewlines, h]

theorem skipNewlines_cons (hk : t.kind = .newline) (hr : rest ≠ []) :
    skipNewlines (t :: rest) = skipNewlines rest := by
  cases rest with
  | nil => exact absurd rfl hr
  | cons u rest => simp [skipNewlines, hk]

theorem skipNewlines_append {lines : List Token} (hl : ∀ t ∈ lines, t.kind = .newline)
    (hr : rest ≠ []) (hn : rest.current.kind ≠ .newline) :
    skipNewlines (lines ++ rest) = .done () rest := by
  induction lines with
  | nil => exact skipNewlines_of_ne hn
  | cons t lines ih =>
    have hne : lines ++ rest ≠ [] := by simp [hr]
    rw [List.cons_append, skipNewlines_cons (hl t List.mem_cons_self) hne]
    exact ih fun u hu => hl u (List.mem_cons_of_mem t hu)

theorem skipNewlines_done (h : skipNewlines ts = .done () rest) :
    ∃ lines, ts = lines ++ rest ∧ (∀ t ∈ lines, t.kind = .newline) ∧
      rest.current.kind ≠ .newline := by
  fun_induction skipNewlines ts with
  | case1 t u ts hk ih =>
    obtain ⟨lines, hts, hl, hn⟩ := ih h
    refine ⟨t :: lines, by rw [hts, List.cons_append], ?_, hn⟩
    intro v hv
    rcases List.mem_cons.1 hv with rfl | hv
    · exact eq_of_beq hk
    · exact hl v hv
  | case2 t u ts hk =>
    cases h
    exact ⟨[], rfl, by simp, by simpa using hk⟩
  | case3 ts _ hk => cases h
  | case4 ts _ hk =>
    cases h
    exact ⟨[], rfl, by simp, by simpa using hk⟩

theorem docLines_append {docs : List Token} (hd : ∀ t ∈ docs, t.kind = .docComment)
    (hr : rest ≠ []) (hn : rest.current.kind ≠ .docComment) :
    docLines (docs ++ rest) = .done (docs.map Token.value) rest := by
  induction docs with
  | nil =>
    match rest, hr with
    | [u], _ => simpa [docLines] using hn
    | u :: v :: rest, _ =>
      rw [current_cons] at hn
      simp [docLines, hn]
  | cons t docs ih =>
    have ih := ih fun u hu => hd u (List.mem_cons_of_mem t hu)
    have hk := hd t List.mem_cons_self
    cases hs : docs ++ rest with
    | nil => exact absurd (List.append_eq_nil_iff.1 hs).2 hr
    | cons u us =>
      rw [hs] at ih
      rw [List.cons_append, hs]
      simp [docLines, hk, ih]

/-- The documentation comments are passed, and nothing else; their texts are given. -/
theorem docLines_done {lines : List String} (h : docLines ts = .done lines rest) :
    ∃ docs, ts = docs ++ rest ∧ (∀ t ∈ docs, t.kind = .docComment) ∧
      rest.current.kind ≠ .docComment ∧ lines = docs.map Token.value := by
  fun_induction docLines ts generalizing lines with
  | case1 t u ts hk lines' rest' hs ih =>
    cases h
    obtain ⟨docs, hts, hd, hn, rfl⟩ := ih hs
    refine ⟨t :: docs, by rw [hts, List.cons_append], ?_, hn, rfl⟩
    intro v hv
    rcases List.mem_cons.1 hv with rfl | hv
    · exact eq_of_beq hk
    · exact hd v hv
  | case2 => cases h
  | case3 t u ts hk =>
    cases h
    exact ⟨[], rfl, by simp, by simpa using hk, rfl⟩
  | case4 => cases h
  | case5 ts _ hk =>
    cases h
    exact ⟨[], rfl, by simp, by simpa using hk, rfl⟩

/-- The rounds of a repetition: each starts where the one before it ended and at a token with which
the repetition goes on, and behind the last one it does not go on. -/
inductive Chain (goesOn : Token.Kind → Bool) (step : Parse α) :
    TokenStream → List α → TokenStream → Prop
  | nil {rest : TokenStream} (h : goesOn rest.current.kind = false) : Chain goesOn step rest [] rest
  | cons {ts mid rest : TokenStream} {a : α} {as : List α} (hg : goesOn ts.current.kind = true)
      (hs : step ts = .done a mid) (h : Chain goesOn step mid as rest) :
      Chain goesOn step ts (a :: as) rest

variable {goesOn : Token.Kind → Bool} {step : Parse α} {as found : List α} {rounds : Nat}

theorem Chain.stops (h : Chain goesOn step ts as rest) : goesOn rest.current.kind = false := by
  induction h with
  | nil h => exact h
  | cons _ _ _ ih => exact ih

theorem Chain.starts (h : Chain goesOn step ts as rest) (hne : as ≠ []) :
    goesOn ts.current.kind = true := by
  cases h with
  | nil h => exact absurd rfl hne
  | cons hg _ _ => exact hg

theorem repeatFrom_of_chain (h : Chain goesOn step ts as rest) (hr : as.length ≤ rounds) :
    repeatFrom goesOn step found rounds ts = .done (found.reverse ++ as) rest := by
  induction h generalizing found rounds with
  | nil hg => cases rounds <;> simp [repeatFrom, hg]
  | cons hg hs _ ih =>
    cases rounds with
    | zero => simp at hr
    | succ rounds =>
      have hr' : _ ≤ rounds := Nat.le_of_succ_le_succ hr
      simp [repeatFrom, hg, hs, ih hr']

/-- A chain is run if there are rounds enough. -/
theorem Chain.repeatWhile (h : Chain goesOn step ts as rest) (hr : as.length ≤ rounds) :
    repeatWhile rounds goesOn step ts = .done as rest :=
  repeatFrom_of_chain h hr

theorem chain_of_repeatFrom (h : repeatFrom goesOn step found rounds ts = .done as rest) :
    ∃ new, as = found.reverse ++ new ∧ Chain goesOn step ts new rest := by
  induction rounds generalizing found ts with
  | zero =>
    unfold repeatFrom at h
    split at h
    · cases h
    · next hg =>
      cases h
      exact ⟨[], by simp, .nil (by simpa using hg)⟩
  | succ rounds ih =>
    unfold repeatFrom at h
    split at h
    · next hg =>
      split at h
      · next a mid hs =>
        obtain ⟨new, rfl, hc⟩ := ih h
        exact ⟨a :: new, by simp, .cons hg hs hc⟩
      · cases h
    · next hg =>
      cases h
      exact ⟨[], by simp, .nil (by simpa using hg)⟩

/-- All that a repetition can be is a chain. -/
theorem chain_of_repeatWhile (h : Parse.repeatWhile rounds goesOn step ts = .done as rest) :
    Chain goesOn step ts as rest := by
  obtain ⟨new, rfl, hc⟩ := chain_of_repeatFrom h
  exact hc

end Parse

end McdocSchema
