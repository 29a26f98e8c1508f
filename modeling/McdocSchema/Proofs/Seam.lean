import McdocSchema.Proofs.Relocation
import McdocSchema.Proofs.Runs

/-!
# Two runs of a parser

A parser looks at the tokens up to the one where it ends and at no token behind it. To say so, two runs
are compared, whose streams have the same tokens up to a seam (`Seam`), maybe at other positions, and may
go on differently there. `Tracks` compares two outcomes: unless the first run has passed the first token
behind the seam, the second one ends in the same way at the same place. `Local` says this of two parsers,
for all streams with fewer than `n` tokens in front of the seam; it has one law for each way to put
parsers together.

With as many rounds as there are tokens in front of the seam, a run fails only because of a token: one
that does not fit, or a number that cannot be read. The import is the one form that fails by itself. Which
failures are excused is an argument, so that the same lemmas say of all other forms that they never fail
like an import. Where a text ends, a line feed may stand in the second stream (`Uniform` excludes it).
-/

namespace McdocSchema

namespace TokenStream

variable {ts : TokenStream}

/-- The end of the text is the last token. -/
def Closed (ts : TokenStream) : Prop := ∃ front last, ts = front ++ [last] ∧ last.kind = .eof

theorem Ended.closed (h : Ended ts) : Closed ts := by
  obtain ⟨front, last, hts, hlast, -⟩ := h
  exact ⟨front, last, hts, hlast⟩

theorem Closed.ne_nil (h : Closed ts) : ts ≠ [] := by
  obtain ⟨front, last, rfl, -⟩ := h
  simp

theorem Closed.append (u : List Token) (h : Closed ts) : Closed (u ++ ts) := by
  obtain ⟨front, last, rfl, hlast⟩ := h
  exact ⟨u ++ front, last, (List.append_assoc u front [last]).symm, hlast⟩

theorem Closed.behind (h : Closed ts) (hk : ts.current.kind ≠ .eof) :
    ts = ts.current :: ts.behind ∧ Closed ts.behind := by
  obtain ⟨front, last, rfl, hlast⟩ := h
  cases front with
  | nil => exact absurd hlast hk
  | cons t front =>
    have hne : front ++ [last] ≠ [] := by simp
    have hbehind : TokenStream.behind (t :: front ++ [last]) = front ++ [last] := behind_cons hne
    rw [hbehind]
    exact ⟨rfl, front, last, rfl, hlast⟩

end TokenStream

open TokenStream

/-- The token is misplaced, or it has a number that cannot be read. -/
def Token.Causes (t : Token) : ParseFault → Prop
  | .misplaced _ token => token = t
  | .number fault => t.kind.isNumber = true ∧ Number.readReal t.value = .error fault ∨
      t.kind = .integer ∧ Number.readInteger t.value = .error fault
  | _ => False

/-- The fault comes from one of the tokens, or it is excused. -/
def ParseFault.IsFound (all : List Token) (I : ParseFault → Prop) (fault : ParseFault) : Prop :=
  I fault ∨ ∃ t ∈ all, t.Causes fault

theorem ParseFault.IsFound.mono {all all' : List Token} {I : ParseFault → Prop} {fault : ParseFault}
    (h : fault.IsFound all I) (hall : all ⊆ all') : fault.IsFound all' I :=
  h.imp id fun ⟨t, ht, hcauses⟩ => ⟨t, hall ht, hcauses⟩

/-- What a token causes need not be excused if it is one of the tokens. -/
theorem ParseFault.IsFound.of_causes {all : List Token} {I : ParseFault → Prop} {fault : ParseFault}
    {t : Token} (h : fault.IsFound all fun fault => I fault ∨ t.Causes fault) (ht : t ∈ all) :
    fault.IsFound all I := by
  rcases h with (h | h) | h
  · exact .inl h
  · exact .inr ⟨t, ht, h⟩
  · exact .inr h

/-- Two streams that follow the same tokens. The first token of the second stream is the first token of
the first one, at its new position; or the first stream is at its end and the second at a line feed. -/
structure Seam where
  place : Position → Position
  left : TokenStream
  right : TokenStream
  closed : left.Closed
  right_ne_nil : right ≠ []
  alike : right.current = left.current.relocate place ∨
    left.current.kind = .eof ∧ right.current.kind = .newline ∧
      right.current.pos = place left.current.pos

namespace Seam

variable (J : Seam)

/-- The streams begin with the same token. -/
def Uniform : Prop := J.right.current = J.left.current.relocate J.place

/-- The first stream with the tokens `u` in front of the seam. -/
abbrev before (u : List Token) : TokenStream := u ++ J.left

/-- The second stream where the first one has the tokens `u` in front of the seam. -/
def across (u : List Token) : TokenStream := u.map (Token.relocate J.place) ++ J.right

/-- A test that the first tokens behind the seam do not tell apart. -/
def Blind (test : Token.Kind → Bool) : Prop :=
  test J.left.current.kind = test J.right.current.kind

variable {J}

/-- The two streams at an end of the text: the one ends there, and the other goes on. -/
def atEnd (last : Token) (more : List Token) (hlast : last.kind = .eof) : Seam where
  place := id
  left := [last]
  right := last :: more
  closed := ⟨[], last, rfl, hlast⟩
  right_ne_nil := List.cons_ne_nil last more
  alike := .inl rfl

theorem across_atEnd {last : Token} {more : List Token} (hlast : last.kind = .eof)
    (front : List Token) : (atEnd last more hlast).across front = front ++ last :: more := by
  show front.map (Token.relocate id) ++ last :: more = _
  have hid : Token.relocate id = id := rfl
  rw [hid, List.map_id]

theorem left_ne_nil : J.left ≠ [] := J.closed.ne_nil

/-- A test that does not tell the end of a text from a line feed is blind at any seam. -/
theorem blind_of_eq {test : Token.Kind → Bool} (h : test .eof = test .newline) : J.Blind test := by
  unfold Blind
  rcases J.alike with hsame | ⟨hleft, hright, -⟩
  · rw [hsame]
    rfl
  · rw [hleft, hright, h]

theorem blind_of_not_mem {k : Token.Kind} (hk : k ∉ [.eof, .newline]) : J.Blind (· == k) := by
  simp only [List.mem_cons, List.not_mem_nil, or_false, not_or] at hk
  apply blind_of_eq
  rw [beq_eq_false_iff_ne.2 (Ne.symm hk.1), beq_eq_false_iff_ne.2 (Ne.symm hk.2)]

theorem Uniform.blind (hJ : J.Uniform) (test : Token.Kind → Bool) : J.Blind test := by
  unfold Blind
  rw [hJ]
  rfl

theorem pos_right : J.right.current.pos = J.place J.left.current.pos := by
  rcases J.alike with hsame | ⟨-, -, hpos⟩
  · rw [hsame]
    rfl
  · exact hpos

theorem eof_of_not_uniform (h : ¬ J.Uniform) : J.left.current.kind = .eof := by
  rcases J.alike with hsame | ⟨hleft, -, -⟩
  · exact absurd hsame h
  · exact hleft

theorem length_left_le (u : List Token) : J.left.length ≤ (J.before u).length := by
  rw [before, List.length_append]
  exact Nat.le_add_left _ _

theorem current_mem (u : List Token) : (J.before u).current ∈ J.before u := by
  cases hts : J.before u with
  | nil => simp [left_ne_nil] at hts
  | cons t ts => exact List.mem_cons_self

theorem across_ne_nil (u : List Token) : J.across u ≠ [] := by
  simp [across, J.right_ne_nil]

theorem current_across (u : List Token) :
    (J.across u).current = (J.before u).current.relocate J.place ∨
      ¬ J.Uniform ∧ u = [] := by
  cases u with
  | nil => exact (Classical.em J.Uniform).imp id fun h => ⟨h, rfl⟩
  | cons t u => exact .inl rfl

theorem Blind.current {test : Token.Kind → Bool} (h : J.Blind test) (u : List Token) :
    test (J.across u).current.kind = test (J.before u).current.kind := by
  cases u with
  | nil => exact h.symm
  | cons t u => rfl

/-- Behind a token that is not the end of the text, both runs have one token less in front of the seam,
or the first one has passed it. -/
theorem behind_across (u : List Token) (h : (J.before u).current.kind ≠ .eof) :
    (J.before u).behind.length < J.left.length ∨
      ∃ v, v.length < u.length ∧ (J.before u).behind = v ++ J.left ∧
        (J.across u).behind = J.across v := by
  cases u with
  | nil =>
    obtain ⟨hcons, -⟩ := J.closed.behind h
    have hlen := congrArg List.length hcons
    rw [List.length_cons] at hlen
    exact .inl (by rw [Seam.before, List.nil_append]; omega)
  | cons t u =>
    refine .inr ⟨u, by simp, ?_, ?_⟩
    · exact behind_cons (by simp [J.left_ne_nil])
    · exact behind_cons (J.across_ne_nil u)

/-- The seam some tokens earlier, where the streams begin with the same token. -/
def earlier (J : Seam) (t : Token) (u : List Token) : Seam where
  place := J.place
  left := J.before (t :: u)
  right := J.across (t :: u)
  closed := J.closed.append (t :: u)
  right_ne_nil := J.across_ne_nil (t :: u)
  alike := .inl rfl

theorem uniform_earlier (t : Token) (u : List Token) : (J.earlier t u).Uniform := rfl

theorem before_earlier (v : List Token) (t : Token) (u : List Token) :
    (J.earlier t u).before v = J.before (v ++ t :: u) :=
  (List.append_assoc v (t :: u) J.left).symm

theorem across_earlier (v : List Token) (t : Token) (u : List Token) :
    (J.earlier t u).across v = J.across (v ++ t :: u) := by
  show v.map (Token.relocate J.place) ++ J.across (t :: u) = J.across (v ++ t :: u)
  simp only [across, List.map_append, List.append_assoc]

/-- What is left of the first stream has passed the seam, or some tokens are left in front of it. -/
theorem exists_of_suffix {rest : TokenStream} {u : List Token} (h : rest <:+ J.before u) :
    rest.length < J.left.length ∨ ∃ v w, u = v ++ w ∧ rest = J.before w := by
  obtain ⟨v, hv⟩ := h
  rcases List.append_eq_append_iff.1 hv with ⟨w, hu, hrest⟩ | ⟨extra, -, hleft⟩
  · exact .inr ⟨v, w, hu, hrest⟩
  · cases extra with
    | nil => exact .inr ⟨u, [], (List.append_nil u).symm, hleft.symm⟩
    | cons t extra =>
      rw [hleft, List.length_append, List.length_cons]
      exact .inl (by omega)

end Seam

namespace Parse

/-! ## Outcomes -/

variable {α β γ δ : Type} {J : Seam} {F I : ParseFault → Prop} {d e m n : Nat}
variable {o' : Outcome β}

/-- The outcome of the first run has passed the first token behind the seam, or the second run ends in
the same way; of `m` tokens in front of the seam, a value costs at least `d`, and `F` holds of a fault. -/
inductive Tracks (J : Seam) (F : ParseFault → Prop) (m d : Nat) (g : α → β) : Outcome α → Outcome β → Prop
  | past {o : Outcome α} {o' : Outcome β} (h : o.rest.length < J.left.length) : Tracks J F m d g o o'
  | done (a : α) {u : List Token} (h : u.length + d ≤ m) :
      Tracks J F m d g (.done a (u ++ J.left)) (.done (g a) (J.across u))
  | failed (fault : ParseFault) (u : List Token) (h : F fault) :
      Tracks J F m d g (.failed fault (u ++ J.left)) (.failed (fault.relocate J.place) (J.across u))
  | apart {fault : ParseFault} {rest : TokenStream} {o' : Outcome β} (h : ¬ J.Uniform) :
      Tracks J F m d g (.failed fault rest) o'

theorem Tracks.mono {g : α → β} {o : Outcome α} (h : Tracks J F m d g o o')
    (hm : m + e ≤ n + d) : Tracks J F n e g o o' := by
  cases h with
  | past h => exact .past h
  | done a h => exact .done a (by omega)
  | failed fault u h => exact .failed fault u h
  | apart h => exact .apart h

theorem Tracks.of_imp {F' : ParseFault → Prop} {g : α → β} {o : Outcome α}
    (h : Tracks J F m d g o o') (hF : ∀ fault, F fault → F' fault) : Tracks J F' m d g o o' := by
  cases h with
  | past h => exact .past h
  | done a h => exact .done a h
  | failed fault u h => exact .failed fault u (hF fault h)
  | apart h => exact .apart h

theorem Tracks.of_done {g : α → β} {a : α} {u : List Token}
    (h : Tracks J F m d g (.done a (J.before u)) o') :
    o' = .done (g a) (J.across u) ∧ u.length + d ≤ m := by
  generalize ho : Outcome.done a (J.before u) = o at h
  cases h with
  | past hpast =>
    rw [← ho] at hpast
    exact absurd hpast (Nat.not_lt.2 (J.length_left_le u))
  | @done _ v hv =>
    obtain ⟨rfl, heq⟩ := Outcome.done.inj ho
    rw [List.append_cancel_right heq]
    exact ⟨rfl, hv⟩
  | failed | apart => cases ho

theorem Tracks.of_failed {g : α → β} {fault : ParseFault} {u : List Token}
    (hJ : J.Uniform) (h : Tracks J F m d g (.failed fault (J.before u)) o') :
    o' = .failed (fault.relocate J.place) (J.across u) ∧ F fault := by
  generalize ho : Outcome.failed fault (J.before u) = o at h
  cases h with
  | past hpast =>
    rw [← ho] at hpast
    exact absurd hpast (Nat.not_lt.2 (J.length_left_le u))
  | done => cases ho
  | failed _ v hproper =>
    obtain ⟨rfl, hv⟩ := Outcome.failed.inj ho
    rw [List.append_cancel_right hv]
    exact ⟨rfl, hproper⟩
  | apart hne => exact absurd hJ hne

/-! ## Parsers -/

/-- A stream that may be left of another one: its end, and never nothing of it. -/
def Leaves (ts rest : TokenStream) : Prop := rest <:+ ts ∧ (ts ≠ [] → rest ≠ [])

theorem leaves_refl (ts : TokenStream) : Leaves ts ts := ⟨List.suffix_rfl, id⟩

theorem Leaves.trans {ts mid rest : TokenStream} (h : Leaves ts mid) (h' : Leaves mid rest) :
    Leaves ts rest :=
  ⟨h'.1.trans h.1, fun hne => h'.2 (h.2 hne)⟩

theorem Leaves.length_le {ts rest : TokenStream} (h : Leaves ts rest) : rest.length ≤ ts.length :=
  h.1.length_le

theorem leaves_cons (t : Token) {rest : TokenStream} (hr : rest ≠ []) : Leaves (t :: rest) rest :=
  ⟨List.suffix_cons t rest, fun _ => hr⟩

theorem leaves_behind (ts : TokenStream) : Leaves ts ts.behind := by
  rcases ts with _ | ⟨t, _ | ⟨u, ts⟩⟩
  · exact leaves_refl []
  · exact leaves_refl [t]
  · exact leaves_cons t (List.cons_ne_nil u ts)

/-- For all streams with fewer than `n` tokens in front of the seam and a current token whose kind
satisfies `P`, the outcome of the one parser is tracked by that of the other, and a value costs at
least `d` tokens. A fault comes from the tokens or is excused by `I`. -/
structure Local (J : Seam) (I : ParseFault → Prop) (P : Token.Kind → Prop) (n d : Nat) (g : α → β) (p : Parse α)
    (q : Parse β) : Prop where
  leaves : ∀ ts : TokenStream, Leaves ts (p ts).rest
  tracks : ∀ u : List Token, u.length < n → P (J.before u).current.kind →
    Tracks J (·.IsFound (J.before u) I) u.length d g (p (J.before u)) (q (J.across u))

variable {P Q : Token.Kind → Prop} {g : α → β} {h : γ → δ} {p : Parse α} {q : Parse β}
  {k : Token.Kind}

/-- A parser at any current token. -/
abbrev Anywhere : Token.Kind → Prop := fun _ => True

/-- All faults are excused. -/
abbrev Anything : ParseFault → Prop := fun _ => True

theorem Local.mono (hp : Local J I P n d g p q) (hPQ : ∀ k, Q k → P k) (hm : m ≤ n) (he : e ≤ d) :
    Local J I Q m e g p q := by
  refine ⟨hp.leaves, ?_⟩
  intro u hu hQ
  exact (hp.tracks u (by omega) (hPQ _ hQ)).mono (by omega)

theorem Local.weaken (hp : Local J I P n 1 g p q) : Local J I P n 0 g p q :=
  hp.mono (fun _ hk => hk) (Nat.le_refl n) (Nat.zero_le 1)

theorem Local.restrict (hp : Local J I P n d g p q) (hPQ : ∀ k, Q k → P k) : Local J I Q n d g p q :=
  hp.mono hPQ (Nat.le_refl n) (Nat.le_refl d)

theorem Local.at (hp : Local J I Anywhere n d g p q) : Local J I P n d g p q :=
  hp.restrict fun _ _ => trivial

theorem local_zero (hs : ∀ ts, Leaves ts (p ts).rest) : Local J I P 0 d g p q :=
  ⟨hs, fun u hu => absurd hu (Nat.not_lt_zero u.length)⟩

theorem local_of_false (hs : ∀ ts, Leaves ts (p ts).rest) (hP : ∀ k, ¬ P k) :
    Local J I P n d g p q :=
  ⟨hs, fun _ _ hk => absurd hk (hP _)⟩

/-! ### Putting parsers together -/

variable {f : α → Parse γ}

theorem leaves_bind (hp : ∀ ts, Leaves ts (p ts).rest)
    (hf : ∀ a ts rest, p ts = .done a rest → Leaves rest (f a rest).rest) (ts : TokenStream) :
    Leaves ts ((p >>= f) ts).rest := by
  have hleaves := hp ts
  rw [bind_apply]
  cases hpt : p ts with
  | done a rest =>
    rw [hpt] at hleaves
    exact hleaves.trans (hf a ts rest hpt)
  | failed fault rest =>
    rw [hpt] at hleaves
    exact hleaves

theorem local_pure {a : α} {b : β} (hb : b = g a) : Local J I P n 0 g (pure a) (pure b) := by
  refine ⟨leaves_refl, ?_⟩
  intro u _ _
  rw [hb]
  exact .done a (Nat.le_refl _)

/-- The law for a parser that costs `d` tokens: the one behind it has so many fewer in front of the
seam. -/
theorem Local.bind_of_produced {f' : β → Parse δ} (hp : Local J I P n d g p q)
    (hf : ∀ a ts rest, p ts = .done a rest → Local J I Anywhere (n - d) e h (f a) (f' (g a))) :
    Local J I P n (d + e) h (p >>= f) (q >>= f') := by
  constructor
  · exact leaves_bind hp.leaves fun a ts rest h => (hf a ts rest h).leaves rest
  · intro u hu hP
    have htrack := hp.tracks u hu hP
    have hleaves := hp.leaves (J.before u)
    rw [bind_apply, bind_apply]
    cases hpt : p (J.before u) with
    | done a rest =>
      have hloc := hf a _ rest hpt
      rw [hpt] at htrack hleaves
      generalize q (J.across u) = o' at htrack
      cases htrack with
      | past hpast => exact .past (Nat.lt_of_le_of_lt (hloc.leaves rest).length_le hpast)
      | @done _ v hv =>
        refine ((hloc.tracks v (by omega) trivial).mono (by omega)).of_imp fun _ h => ?_
        exact h.mono hleaves.1.subset
    | failed fault rest =>
      rw [hpt] at htrack
      generalize q (J.across u) = o' at htrack
      cases htrack with
      | past hpast => exact .past hpast
      | failed _ v hproper => exact .failed fault v hproper
      | apart hJ => exact .apart hJ

theorem Local.bind {f' : β → Parse δ} (hp : Local J I P n 0 g p q)
    (hf : ∀ a, Local J I Anywhere n e h (f a) (f' (g a))) : Local J I P n e h (p >>= f) (q >>= f') := by
  have hbind : Local J I P n (0 + e) h (p >>= f) (q >>= f') :=
    hp.bind_of_produced fun a _ _ _ => hf a
  rwa [Nat.zero_add] at hbind

theorem Local.bindStep {f' : β → Parse δ} (hp : Local J I P n 1 g p q)
    (hf : ∀ a, Local J I Anywhere (n - 1) 0 h (f a) (f' (g a))) :
    Local J I P n 1 h (p >>= f) (q >>= f') :=
  hp.bind_of_produced fun a _ _ _ => hf a

theorem map_rest (f : α → γ) (ts : TokenStream) : ((f <$> p) ts).rest = (p ts).rest := by
  show ((p >>= fun a => pure (f a)) ts).rest = _
  rw [bind_apply]
  cases p ts <;> rfl

theorem Tracks.map {f : α → γ} {f' : β → δ} {ts ts' : TokenStream}
    (htrack : Tracks J F m d g (p ts) (q ts')) (hf : ∀ a, f' (g a) = h (f a)) :
    Tracks J F m d h ((f <$> p) ts) ((f' <$> q) ts') := by
  show Tracks J F m d h ((p >>= fun a => pure (f a)) ts) ((q >>= fun b => pure (f' b)) ts')
  rw [bind_apply, bind_apply]
  generalize p ts = o at htrack
  generalize q ts' = o' at htrack
  cases htrack with
  | past hpast =>
    apply Tracks.past
    cases o <;> exact hpast
  | done a hu =>
    simp only [pure_apply, hf]
    exact .done (f a) hu
  | failed fault u hproper => exact .failed fault u hproper
  | apart hJ => exact .apart hJ

theorem Local.map {f : α → γ} {f' : β → δ} (hp : Local J I P n d g p q)
    (hf : ∀ a, f' (g a) = h (f a)) : Local J I P n d h (f <$> p) (f' <$> q) := by
  refine ⟨?_, fun u hu hP => (hp.tracks u hu hP).map hf⟩
  intro ts
  rw [map_rest]
  exact hp.leaves ts

theorem Local.discard (hp : Local J I P n d g p q) :
    Local J I P n d id (discard p) (discard q) :=
  hp.map fun _ => rfl

/-! ### Single tokens -/

variable {f' : Token → Parse δ}

/-- Where the second run may see a line feed instead of the end of the text, the parsers are compared
there for themselves. What the current token causes is excused. -/
theorem local_reading {f : Token → Parse γ}
    (hf : ∀ t, Local J (fun fault => I fault ∨ t.Causes fault) (fun k => k = t.kind ∧ P k) n d h (f t)
      (f' (t.relocate J.place)))
    (hend : ¬ J.Uniform → P .eof →
      Tracks J (·.IsFound J.left I) 0 d h (f J.left.current J.left) (f' J.right.current J.right)) :
    Local J I P n d h (Parse.current >>= f) (Parse.current >>= f') := by
  constructor
  · intro ts
    exact (hf ts.current).leaves ts
  · intro u hu hP
    show Tracks J _ u.length d h (f (J.before u).current _) (f' (J.across u).current _)
    rcases J.current_across u with hsame | ⟨hJ, rfl⟩
    · rw [hsame]
      exact ((hf _).tracks u hu ⟨rfl, hP⟩).of_imp fun _ h => h.of_causes (J.current_mem u)
    · apply hend hJ
      rwa [← J.eof_of_not_uniform hJ]

theorem local_current {f : Token → Parse γ}
    (hf : ∀ t, Local J I (fun k => k = t.kind ∧ P k) n d h (f t) (f' (t.relocate J.place)))
    (hend : ¬ J.Uniform → P .eof →
      Tracks J (·.IsFound J.left I) 0 d h (f J.left.current J.left) (f' J.right.current J.right)) :
    Local J I P n d h (Parse.current >>= f) (Parse.current >>= f') := by
  refine local_reading (fun t => ⟨(hf t).leaves, fun u hu hP => ?_⟩) hend
  exact ((hf t).tracks u hu hP).of_imp fun _ h => h.imp .inl id

/-- A test of the current token that the end of the text does not pass. -/
theorem local_current_if (test : Token.Kind → Bool) {f : Token → Parse γ}
    {r : Parse γ} {r' : Parse δ} (hb : J.Blind test) (hend : test .eof = false)
    (htrue : ∀ t, Local J (fun fault => I fault ∨ t.Causes fault) (fun k => k = t.kind ∧ test k = true)
      n d h (f t) (f' (t.relocate J.place)))
    (hfalse : Local J I P n d h r r') :
    Local J I P n d h (Parse.current >>= fun t => if test t.kind then f t else r)
      (Parse.current >>= fun t => if test t.kind then f' t else r') := by
  constructor
  · intro ts
    rw [current_bind]
    split
    · exact (htrue ts.current).leaves ts
    · exact hfalse.leaves ts
  · intro u hu hP
    rw [current_bind, current_bind, hb.current u]
    split
    · next htest =>
      rcases J.current_across u with hsame | ⟨hJ, rfl⟩
      · rw [hsame]
        exact ((htrue _).tracks u hu ⟨rfl, htest⟩).of_imp fun _ h => h.of_causes (J.current_mem u)
      · have hkind : (J.before []).current.kind = .eof := J.eof_of_not_uniform hJ
        rw [hkind, hend] at htest
        cases htest
    · exact hfalse.tracks u hu hP

theorem local_sees {f : Bool → Parse γ} {f' : Bool → Parse δ} (hb : J.Blind (· == k))
    (htrue : Local J I (fun j => j = k ∧ P j) n d h (f true) (f' true))
    (hfalse : Local J I (fun j => j ≠ k ∧ P j) n d h (f false) (f' false)) :
    Local J I P n d h (sees k >>= f) (sees k >>= f') := by
  constructor
  · intro ts
    rw [sees_bind]
    cases ts.current.kind == k with
    | true => exact htrue.leaves ts
    | false => exact hfalse.leaves ts
  · intro u hu hP
    rw [sees_bind, sees_bind, hb.current u]
    by_cases hk : (J.before u).current.kind = k
    · rw [beq_iff_eq.2 hk]
      exact htrue.tracks u hu ⟨hk, hP⟩
    · rw [beq_eq_false_iff_ne.2 hk]
      exact hfalse.tracks u hu ⟨hk, hP⟩

theorem local_advance (hP : ∀ j, P j → j ≠ .eof) : Local J I P n 1 id advance advance := by
  refine ⟨leaves_behind, ?_⟩
  intro u _ hk
  rw [advance, advance]
  rcases J.behind_across u (hP _ hk) with hpast | ⟨v, hv, hleft, hright⟩
  · exact .past hpast
  · rw [hleft, hright]
    exact .done () hv

theorem local_eat {f : Bool → Parse γ} {f' : Bool → Parse δ} (hk : k ∉ [.eof, .newline])
    (htrue : Local J I Anywhere n d h (f true) (f' true))
    (hfalse : Local J I (fun j => j ≠ k ∧ P j) n d h (f false) (f' false)) :
    Local J I P n d h (eat k >>= f) (eat k >>= f') := by
  rw [eat_bind_eq, eat_bind_eq]
  refine local_sees (Seam.blind_of_not_mem hk) ((local_advance ?_).weaken.bind fun _ => htrue) hfalse
  rintro j ⟨rfl, -⟩ rfl
  simp at hk

theorem local_eaten (hk : k ∉ [.eof, .newline]) : Local J I P n 0 id (eat k) (eat k) := by
  rw [← eat_bind_ite]
  exact local_eat hk (local_pure rfl) (local_pure rfl)

theorem local_fail {cause : ParseCause} : Local J I P n d g (fail cause) (fail cause) := by
  refine ⟨leaves_refl, ?_⟩
  intro u _ _
  rw [fail, fail]
  rcases J.current_across u with hsame | ⟨hJ, -⟩
  · rw [hsame]
    exact .failed (.misplaced cause _) u (.inr ⟨_, J.current_mem u, rfl⟩)
  · exact .apart hJ

theorem local_throw {fault : ParseFault} (hfault : fault.relocate J.place = fault)
    (hI : ∀ k, P k → I fault) :
    Local J I P n d g (throw fault) (throw fault) := by
  refine ⟨leaves_refl, ?_⟩
  intro u _ hP
  have htrack : Tracks J (·.IsFound (J.before u) I) u.length d g (.failed fault (J.before u))
      (.failed (fault.relocate J.place) (J.across u)) := .failed fault u (.inl (hI _ hP))
  rwa [hfault] at htrack

theorem local_consumeOr {cause : Token.Kind → ParseCause} (hb : J.Blind (· == k)) (hk : k ≠ .eof) :
    Local J I P n 1 (Token.relocate J.place) (consumeOr k cause) (consumeOr k cause) := by
  constructor
  · intro ts
    rw [consumeOr]
    split
    · exact leaves_behind ts
    · exact leaves_refl ts
  · intro u _ _
    rw [consumeOr, consumeOr, hb.current u]
    split
    · next hts =>
      have hne : (J.before u).current.kind ≠ .eof := by rwa [eq_of_beq hts]
      rcases J.current_across u with hsame | ⟨hJ, rfl⟩
      · rcases J.behind_across u hne with hpast | ⟨v, hv, hleft, hright⟩
        · exact .past hpast
        · rw [hleft, hright, hsame]
          exact .done _ hv
      · exact absurd (J.eof_of_not_uniform hJ) hne
    · rcases J.current_across u with hsame | ⟨hJ, -⟩
      · rw [hsame]
        exact .failed (.misplaced _ _) u (.inr ⟨_, J.current_mem u, rfl⟩)
      · exact .apart hJ

theorem local_consume (hb : J.Blind (· == k)) (hk : k ≠ .eof) :
    Local J I P n 1 (Token.relocate J.place) (consume k) (consume k) :=
  local_consumeOr hb hk

theorem local_word (hk : k ∉ [.eof, .newline]) :
    Local J I P n 1 (Token.relocate J.place) (consume k) (consume k) :=
  local_consume (Seam.blind_of_not_mem hk) fun he => hk (by simp [he])

/-- A construct with a closing token does not look behind it, and so it is local at any seam if what
stands in front of the closing token is local where the streams begin with the same token. -/
theorem local_closed {f : α → γ} {f' : β → δ} (hk : k ≠ .eof)
    (hp : ∀ K : Seam, K.Uniform → K.place = J.place → Local K I P n 0 g p q)
    (hf : ∀ a, f' (g a) = h (f a)) :
    Local J I P n 0 h (p >>= fun a => discard (consume k) >>= fun _ => pure (f a))
      (q >>= fun b => discard (consume k) >>= fun _ => pure (f' b)) := by
  have huniform : ∀ K : Seam, K.Uniform → K.place = J.place →
      Local K I P n 0 h (p >>= fun a => discard (consume k) >>= fun _ => pure (f a))
        (q >>= fun b => discard (consume k) >>= fun _ => pure (f' b)) := by
    intro K hK hplace
    apply (hp K hK hplace).bind
    intro a
    apply (local_consume (hK.blind _) hk).weaken.discard.bind
    intro _
    exact local_pure (hf a)
  refine ⟨(huniform (J.earlier .absent []) (Seam.uniform_earlier _ _) rfl).leaves, ?_⟩
  intro u hu hP
  by_cases hJ : J.Uniform
  · exact (huniform J hJ rfl).tracks u hu hP
  · cases hrun : (p >>= fun a => discard (consume k) >>= fun _ => pure (f a)) (J.before u) with
    | failed fault rest => exact .apart hJ
    | done c rest =>
      obtain ⟨a, mid, hmid, hrest⟩ := bind_done_iff.1 hrun
      obtain ⟨t, _, hclose, hpure⟩ := discard_bind_done_iff.1 hrest
      obtain ⟨rfl, rfl⟩ := pure_done_iff.1 hpure
      obtain ⟨hkind, rfl, rfl⟩ := consume_done_iff.1 hclose
      have hleaves := (hp (J.earlier .absent []) (Seam.uniform_earlier _ _) rfl).leaves (J.before u)
      rw [hmid] at hleaves
      -- The closing token stands in front of the seam, or the run has passed it.
      rcases Seam.exists_of_suffix hleaves.1 with hpast | ⟨v, w, rfl, rfl⟩
      · exact .past (Nat.lt_of_le_of_lt (leaves_behind mid).length_le hpast)
      · cases w with
        | nil => exact absurd (hkind.symm.trans (J.eof_of_not_uniform hJ)) hk
        | cons t w =>
          have htrack := (hp (J.earlier t w) (Seam.uniform_earlier t w) rfl).tracks v
            (by simp at hu; omega) (by rwa [Seam.before_earlier])
          rw [Seam.before_earlier, Seam.across_earlier, hmid] at htrack
          have hsecond : q (J.across (v ++ t :: w)) = .done (g a) (J.across (t :: w)) :=
            (htrack.of_done (u := [])).1
          have hnext : consume k (J.across (t :: w)) =
              .done (t.relocate J.place) (J.across w) :=
            consume_cons hkind (J.across_ne_nil w)
          have hbehind : (J.before (t :: w)).behind = J.before w :=
            behind_cons (by simp [J.left_ne_nil])
          rw [bind_of_done hsecond, discard_bind_of_done hnext, pure_apply, hf, hbehind]
          exact .done (f a) (by simp; omega)

/-! ### Repetition -/

theorem leaves_skipNewlines (ts : TokenStream) : Leaves ts (skipNewlines ts).rest := by
  fun_induction skipNewlines ts with
  | case1 t u ts hk ih => exact (leaves_cons t (List.cons_ne_nil u ts)).trans ih
  | _ => exact leaves_refl _

theorem leaves_docLines (ts : TokenStream) : Leaves ts (docLines ts).rest := by
  fun_induction docLines ts with
  | case1 t u ts hk lines rest hs ih =>
    rw [hs] at ih
    exact (leaves_cons t (List.cons_ne_nil u ts)).trans ih
  | case2 t u ts hk fault rest hs ih =>
    rw [hs] at ih
    exact (leaves_cons t (List.cons_ne_nil u ts)).trans ih
  | _ => exact leaves_refl _

theorem exists_skipNewlines {ts : TokenStream} (hts : ts.Closed) :
    ∃ rest, skipNewlines ts = .done () rest := by
  obtain ⟨front, last, rfl, hlast⟩ := hts
  induction front with
  | nil =>
    have hne : last.kind ≠ .newline := by
      rw [hlast]
      decide
    exact ⟨[last], skipNewlines_of_ne hne⟩
  | cons t front ih =>
    by_cases hk : t.kind = .newline
    · rw [List.cons_append, skipNewlines_cons hk (by simp)]
      exact ih
    · exact ⟨_, skipNewlines_of_ne hk⟩

theorem length_skipNewlines_lt {ts : TokenStream} (hts : ts.Closed) (hk : ts.current.kind = .newline) :
    (skipNewlines ts).rest.length < ts.length := by
  obtain ⟨hcons, hend⟩ := hts.behind (by rw [hk]; decide)
  have hle := (leaves_skipNewlines ts.behind).length_le
  rw [hcons, skipNewlines_cons hk hend.ne_nil, List.length_cons]
  omega

theorem tracks_skipNewlines_cons (t : Token) {u : List Token} (hk : t.kind = .newline)
    (h : Tracks J F u.length 0 id (skipNewlines (J.before u)) (skipNewlines (J.across u))) :
    Tracks J F (t :: u).length 1 id (skipNewlines (J.before (t :: u)))
      (skipNewlines (J.across (t :: u))) := by
  have hleft : skipNewlines (J.before (t :: u)) = skipNewlines (J.before u) :=
    skipNewlines_cons hk (by simp [J.left_ne_nil])
  have hright : skipNewlines (J.across (t :: u)) = skipNewlines (J.across u) :=
    skipNewlines_cons hk (J.across_ne_nil u)
  rw [hleft, hright]
  exact h.mono (by simp)

/-- Line breaks are passed alike, unless one of the runs has the end of the text instead. -/
theorem tracks_skipNewlines (hJ : J.Uniform) (u : List Token) :
    Tracks J F u.length 0 id (skipNewlines (J.before u)) (skipNewlines (J.across u)) := by
  induction u with
  | nil =>
    by_cases hk : J.left.current.kind = .newline
    · exact .past (length_skipNewlines_lt J.closed hk)
    · have hleft : skipNewlines (J.before []) = .done () (J.before []) := skipNewlines_of_ne hk
      have hright : skipNewlines (J.across []) = .done () (J.across []) := by
        apply skipNewlines_of_ne
        show J.right.current.kind ≠ .newline
        rwa [hJ]
      rw [hleft, hright]
      exact .done () (Nat.le_refl 0)
  | cons t u ih =>
    by_cases hk : t.kind = .newline
    · exact (tracks_skipNewlines_cons t hk ih).mono (by omega)
    · have hleft : skipNewlines (J.before (t :: u)) = .done () (J.before (t :: u)) :=
        skipNewlines_of_ne hk
      have hright : skipNewlines (J.across (t :: u)) = .done () (J.across (t :: u)) :=
        skipNewlines_of_ne hk
      rw [hleft, hright]
      exact .done () (Nat.le_refl _)

theorem local_skipNewlines (hJ : J.Uniform) : Local J I P n 0 id skipNewlines skipNewlines :=
  ⟨leaves_skipNewlines, fun u _ _ => tracks_skipNewlines hJ u⟩

theorem local_skipNewlines_newline (hJ : J.Uniform) :
    Local J I (· = .newline) n 1 id skipNewlines skipNewlines := by
  refine ⟨leaves_skipNewlines, ?_⟩
  intro u _ hk
  cases u with
  | nil => exact .past (length_skipNewlines_lt J.closed hk)
  | cons t u => exact tracks_skipNewlines_cons t hk (tracks_skipNewlines hJ u)

/-- Behind line breaks there are fewer tokens, and where there are none the current token stays. -/
theorem local_skipNewlines_bind {f : Unit → Parse γ} {f' : Unit → Parse δ} (hJ : J.Uniform)
    (hbreak : Local J I Anywhere (n - 1) 0 h (f ()) (f' ()))
    (hnone : Local J I (fun k => k ≠ .newline ∧ P k) n 1 h (f ()) (f' ())) :
    Local J I P n 1 h (skipNewlines >>= f) (skipNewlines >>= f') := by
  have hloc : Local J I (· = .newline) n 1 h (skipNewlines >>= f) (skipNewlines >>= f') :=
    (local_skipNewlines_newline hJ).bindStep fun _ => hbreak
  refine ⟨hloc.leaves, ?_⟩
  intro u hu hP
  by_cases hk : (J.before u).current.kind = .newline
  · exact hloc.tracks u hu hk
  · have hk' : (J.across u).current.kind ≠ .newline := by
      have hsame := (hJ.blind (· == .newline)).current u
      rwa [beq_eq_false_iff_ne.2 hk, beq_eq_false_iff_ne] at hsame
    rw [bind_of_done (skipNewlines_of_ne hk), bind_of_done (skipNewlines_of_ne hk')]
    exact hnone.tracks u hu ⟨hk, hP⟩

theorem docLines_cons {t : Token} {rest : TokenStream} (hk : t.kind = .docComment) (hr : rest ≠ []) :
    docLines (t :: rest) = ((t.value :: ·) <$> docLines) rest := by
  show _ = (docLines >>= fun lines => pure (t.value :: lines)) rest
  cases rest with
  | nil => exact absurd rfl hr
  | cons u rest =>
    rw [docLines, hk, if_pos (by decide), bind_apply]
    cases docLines (u :: rest) <;> rfl

theorem docLines_of_ne {ts : TokenStream} (h : ts.current.kind ≠ .docComment) :
    docLines ts = .done [] ts := by
  rcases ts with _ | ⟨t, _ | ⟨u, ts⟩⟩
  · rfl
  · simpa [docLines] using h
  · rw [current_cons] at h
    simp [docLines, h]

theorem local_docLines : Local J I P n 0 id docLines docLines := by
  suffices htracks : ∀ (F : ParseFault → Prop) (u : List Token),
      Tracks J F u.length 0 id (docLines (J.before u)) (docLines (J.across u)) from
    ⟨leaves_docLines, fun u _ _ => htracks _ u⟩
  intro F u
  induction u with
  | nil =>
    -- At the seam the first run reads past the end of what is shared, or both runs stop.
    by_cases hk : J.left.current.kind = .docComment
    · obtain ⟨hcons, hend⟩ := J.closed.behind (by rw [hk]; decide)
      have hle := (leaves_docLines J.left.behind).length_le
      apply Tracks.past
      rw [Seam.before, List.nil_append, hcons, docLines_cons hk hend.ne_nil, map_rest,
        List.length_cons]
      omega
    · have hk' : J.right.current.kind ≠ .docComment := by
        have hblind : J.Blind (· == .docComment) := Seam.blind_of_eq rfl
        rw [Seam.Blind, beq_eq_false_iff_ne.2 hk] at hblind
        exact beq_eq_false_iff_ne.1 hblind.symm
      have hleft : docLines (J.before []) = .done [] (J.before []) := docLines_of_ne hk
      have hright : docLines (J.across []) = .done [] (J.across []) := docLines_of_ne hk'
      rw [hleft, hright]
      exact .done [] (Nat.le_refl 0)
  | cons t u ih =>
    by_cases hk : t.kind = .docComment
    · have hleft : docLines (J.before (t :: u)) = ((t.value :: ·) <$> docLines) (J.before u) :=
        docLines_cons hk (by simp [J.left_ne_nil])
      have hright : docLines (J.across (t :: u)) = ((t.value :: ·) <$> docLines) (J.across u) :=
        docLines_cons hk (J.across_ne_nil u)
      rw [hleft, hright]
      have htrack : Tracks J F u.length 0 id (((t.value :: ·) <$> docLines) (J.before u))
          (((t.value :: ·) <$> docLines) (J.across u)) := ih.map fun _ => rfl
      exact htrack.mono (by simp)
    · have hleft : docLines (J.before (t :: u)) = .done [] (J.before (t :: u)) := docLines_of_ne hk
      have hright : docLines (J.across (t :: u)) = .done [] (J.across (t :: u)) := docLines_of_ne hk
      rw [hleft, hright]
      exact .done [] (Nat.le_refl _)

section

variable {goesOn : Token.Kind → Bool} {step : Parse α} {found : List α} {rounds : Nat}
  {ts : TokenStream}

theorem repeatFrom_of_stops (h : goesOn ts.current.kind = false) :
    repeatFrom goesOn step found rounds ts = .done found.reverse ts := by
  cases rounds <;> simp [repeatFrom, h]

theorem repeatFrom_succ (h : goesOn ts.current.kind = true) :
    repeatFrom goesOn step found (rounds + 1) ts = match step ts with
      | .done a rest => repeatFrom goesOn step (a :: found) rounds rest
      | .failed fault rest => .failed fault rest := by
  cases hstep : step ts <;> simp [repeatFrom, h, hstep]

theorem leaves_repeatFrom (hs : ∀ ts, Leaves ts (step ts).rest) (found : List α) (rounds : Nat)
    (ts : TokenStream) : Leaves ts (repeatFrom goesOn step found rounds ts).rest := by
  induction rounds generalizing found ts with
  | zero =>
    cases hg : goesOn ts.current.kind with
    | false =>
      rw [repeatFrom_of_stops hg]
      exact leaves_refl ts
    | true =>
      simp only [repeatFrom, hg, if_true]
      exact leaves_refl ts
  | succ rounds ih =>
    cases hg : goesOn ts.current.kind with
    | false =>
      rw [repeatFrom_of_stops hg]
      exact leaves_refl ts
    | true =>
      have hleaves := hs ts
      rw [repeatFrom_succ hg]
      cases hstep : step ts with
      | done a rest =>
        rw [hstep] at hleaves
        exact hleaves.trans (ih (a :: found) rest)
      | failed fault rest =>
        rw [hstep] at hleaves
        exact hleaves

end

/-- Every round costs a token, so that neither run comes to the end of its rounds. -/
theorem local_repeatWhile {goesOn : Token.Kind → Bool} {rounds rounds' : Nat}
    (hb : J.Blind goesOn) (hr : n ≤ rounds) (hr' : n ≤ rounds')
    (hstep : Local J I (fun k => goesOn k = true) n 1 g p q) :
    Local J I P n 0 (List.map g) (repeatWhile rounds goesOn p) (repeatWhile rounds' goesOn q) := by
  have htracks : ∀ (rounds rounds' : Nat) (u : List Token) (found : List α), u.length < n →
      u.length < rounds → u.length < rounds' →
      Tracks J (·.IsFound (J.before u) I) u.length 0 (List.map g)
        (repeatFrom goesOn p found rounds (J.before u))
        (repeatFrom goesOn q (found.map g) rounds' (J.across u)) := by
    intro rounds
    induction rounds with
    | zero =>
      intro rounds' u found _ hlt _
      exact absurd hlt (Nat.not_lt_zero _)
    | succ rounds ih =>
      intro rounds' u found hn hlt hlt'
      obtain ⟨rounds', rfl⟩ : ∃ r, rounds' = r + 1 := ⟨rounds' - 1, by omega⟩
      have hsame := hb.current u
      cases hg : goesOn (J.before u).current.kind with
      | false =>
        rw [repeatFrom_of_stops hg, repeatFrom_of_stops (hsame.trans hg), ← List.map_reverse]
        exact .done found.reverse (Nat.le_refl _)
      | true =>
        rw [repeatFrom_succ hg, repeatFrom_succ (hsame.trans hg)]
        have htrack := hstep.tracks u hn hg
        have hleaves := hstep.leaves (J.before u)
        generalize p (J.before u) = o at htrack hleaves
        generalize q (J.across u) = o' at htrack
        cases htrack with
        | past hpast =>
          apply Tracks.past
          cases o with
          | done a rest =>
            exact Nat.lt_of_le_of_lt
              (leaves_repeatFrom hstep.leaves (a :: found) rounds rest).length_le hpast
          | failed fault rest => exact hpast
        | @done a v hv =>
          have hnext := ih rounds' v (a :: found) (by omega) (by omega) (by omega)
          exact (hnext.mono (by omega)).of_imp fun _ h => h.mono hleaves.1.subset
        | failed fault v hproper => exact .failed fault v hproper
        | apart hJ => exact .apart hJ
  refine ⟨leaves_repeatFrom hstep.leaves [] rounds, ?_⟩
  intro u hu _
  exact htracks rounds rounds' u [] hu (by omega) (by omega)

theorem local_separator {close : Token.Kind} {cause : ParseCause} (hb : J.Blind (· == close)) :
    Local J I P n 0 id (separator close cause) (separator close cause) := by
  apply local_eat (by decide)
  · exact local_pure rfl
  · apply local_sees hb
    · exact local_pure rfl
    · exact local_fail

end Parse

end McdocSchema
