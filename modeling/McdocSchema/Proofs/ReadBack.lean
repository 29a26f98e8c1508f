import Mathlib.Data.List.ReduceOption
import McdocSchema.Proofs.Acceptance
import McdocSchema.Proofs.Unplaced

/-!
# Printed types are parsed back

What the parsers of types give for the tokens of a printed type: the type, with other positions. A type is
parsed back if the types inside it are, which is shown for each form.
-/

namespace McdocSchema

/-! ## Forms in front of a rest -/

namespace TokenStream

def Front (fs : List Form) (ts rest : TokenStream) : Prop :=
  ∃ w, ts = w ++ rest ∧ w.map Token.form = fs

variable {f : Form} {fs gs : List Form} {ts rest : TokenStream}

theorem front_nil_iff : Front [] ts rest ↔ ts = rest := by
  simp [Front]

theorem front_cons_iff :
    Front (f :: fs) ts rest ↔
      ∃ (t : Token) (mid : TokenStream), ts = t :: mid ∧ t.form = f ∧ Front fs mid rest := by
  constructor
  · rintro ⟨w, rfl, hw⟩
    obtain ⟨t, w, rfl, ht, hw⟩ := List.map_eq_cons_iff.1 hw
    exact ⟨t, w ++ rest, rfl, ht, w, rfl, hw⟩
  · rintro ⟨t, mid, rfl, ht, w, rfl, hw⟩
    exact ⟨t :: w, rfl, by rw [List.map_cons, ht, hw]⟩

theorem front_append_iff :
    Front (fs ++ gs) ts rest ↔ ∃ mid, Front fs ts mid ∧ Front gs mid rest := by
  constructor
  · rintro ⟨w, rfl, hw⟩
    obtain ⟨u, v, rfl, hu, hv⟩ := List.map_eq_append_iff.1 hw
    exact ⟨v ++ rest, ⟨u, by rw [List.append_assoc], hu⟩, v, rfl, hv⟩
  · rintro ⟨mid, ⟨u, rfl, hu⟩, v, rfl, hv⟩
    exact ⟨u ++ v, by rw [List.append_assoc], by rw [List.map_append, hu, hv]⟩

theorem front_singleton_iff : Front [f] ts rest ↔ ∃ t, ts = t :: rest ∧ t.form = f := by
  simp [front_cons_iff, front_nil_iff, and_comm]

theorem Front.ne_nil (h : Front fs ts rest) (hr : rest ≠ []) : ts ≠ [] := by
  obtain ⟨w, rfl, -⟩ := h
  simp [hr]

theorem Front.length_eq (h : Front fs ts rest) : ts.length = fs.length + rest.length := by
  obtain ⟨w, rfl, rfl⟩ := h
  simp

theorem kind_of_form {t : Token} (h : t.form = f) : t.kind = f.kind := by
  rw [← h]
  rfl

theorem value_of_form {t : Token} (h : t.form = f) : t.value = f.value := by
  rw [← h]
  rfl

end TokenStream

open TokenStream

namespace Parse

open Grammar (continuesPrimary continuesType startsType)
open Number (Binary64 IsBound)

variable {α β γ ι : Type} {n rounds : Nat} {ts mid rest : TokenStream}
variable {follow : Token.Kind → Prop}

/-- The parser gives a value with the property `Q` for tokens with the forms, in front of a token with
the property `follow` and in streams shorter than `n`. -/
def Yields (p : Parse α) (fs : List Form) (follow : Token.Kind → Prop) (Q : α → Prop) (n : Nat) :
    Prop :=
  ∀ ts rest : TokenStream, ts.length < n → Front fs ts rest → rest ≠ [] →
    follow rest.current.kind → ∃ a, p ts = .done a rest ∧ Q a

/-- Items that are printed one behind the other are parsed by the rounds of a chain, in front of the
rounds that follow them. -/
theorem exists_chain_append (goesOn : Token.Kind → Bool) {step : Parse α} {xs : List ι}
    {g : ι → List Form} {r : α → γ} {s : ι → γ} {bs : List α}
    (hstep : ∀ x ∈ xs, Yields step (g x) follow (r · = s x) n)
    (hfirst : ∀ x ∈ xs, ∃ f fs, g x = f :: fs ∧ goesOn f.kind = true ∧ follow f.kind)
    (hlen : ts.length < n) (h : Front (xs.flatMap g) ts mid) (hm : mid ≠ [])
    (hf : follow mid.current.kind) (htail : Chain goesOn step mid bs rest) :
    ∃ as, Chain goesOn step ts (as ++ bs) rest ∧ as.length + mid.length ≤ ts.length ∧
      as.map r = xs.map s := by
  induction xs generalizing ts with
  | nil =>
    obtain rfl := front_nil_iff.1 h
    exact ⟨[], htail, by simp, rfl⟩
  | cons x xs ih =>
    rw [List.flatMap_cons] at h
    obtain ⟨next, hx, hxs⟩ := front_append_iff.1 h
    obtain ⟨f, fs, hg, hgo, -⟩ := hfirst x List.mem_cons_self
    have hlt : next.length < ts.length := by
      have := hx.length_eq
      rw [hg, List.length_cons] at this
      omega
    have hcurrent : goesOn ts.current.kind = true := by
      rw [hg] at hx
      obtain ⟨t, _, rfl, ht, -⟩ := front_cons_iff.1 hx
      rwa [current_cons, kind_of_form ht]
    -- Behind the item stands the first form of the next one, or what follows all of them.
    have hnext : follow next.current.kind := by
      cases xs with
      | nil =>
        obtain rfl := front_nil_iff.1 hxs
        exact hf
      | cons y ys =>
        obtain ⟨e, es, he, -, hfollow⟩ := hfirst y (List.mem_cons_of_mem x List.mem_cons_self)
        rw [List.flatMap_cons, he] at hxs
        obtain ⟨t, _, rfl, ht, -⟩ := front_cons_iff.1 hxs
        rwa [current_cons, kind_of_form ht]
    obtain ⟨a, ha, hr⟩ := hstep x List.mem_cons_self ts next hlen hx (hxs.ne_nil hm) hnext
    obtain ⟨as, hc, hl, has⟩ := ih (fun y hy => hstep y (List.mem_cons_of_mem x hy))
      (fun y hy => hfirst y (List.mem_cons_of_mem x hy)) (by omega) hxs
    refine ⟨a :: as, .cons hcurrent ha hc, ?_, ?_⟩
    · rw [List.length_cons]
      omega
    · rw [List.map_cons, List.map_cons, hr, has]

theorem exists_chain (goesOn : Token.Kind → Bool) {step : Parse α} {xs : List ι}
    {g : ι → List Form} {r : α → γ} {s : ι → γ}
    (hstep : ∀ x ∈ xs, Yields step (g x) follow (r · = s x) n)
    (hfirst : ∀ x ∈ xs, ∃ f fs, g x = f :: fs ∧ goesOn f.kind = true ∧ follow f.kind)
    (hlen : ts.length < n) (h : Front (xs.flatMap g) ts rest) (hr : rest ≠ [])
    (hf : follow rest.current.kind) (hg : goesOn rest.current.kind = false) :
    ∃ as, Chain goesOn step ts as rest ∧ as.length + rest.length ≤ ts.length ∧
      as.map r = xs.map s := by
  obtain ⟨as, hc, hl, has⟩ := exists_chain_append goesOn hstep hfirst hlen h hr hf (.nil hg)
  rw [List.append_nil] at hc
  exact ⟨as, hc, hl, has⟩

/-! ## Ranges -/

theorem bound?_of_front {max : Option Binary64} (hm : ∀ x ∈ max, IsBound x)
    (h : Front (NumberRange.maxForms max) ts rest) (hr : rest ≠ [])
    (hk : rest.current.kind.isNumber = false) : bound? ts = .done max rest := by
  cases max with
  | none =>
    obtain rfl := front_nil_iff.1 h
    exact bound?_of_not_isNumber hk
  | some x =>
    obtain ⟨t, rfl, ht⟩ := front_singleton_iff.1 h
    refine bound?_cons ?_ ?_ hr
    · rw [kind_of_form ht]
      rfl
    · rw [value_of_form ht]
      exact Binary64.readReal_boundText (Number.isBound_iff.1 (hm x rfl))

theorem numberRange_of_front {range : NumberRange} (hp : range.IsPrintable)
    (h : Front range.forms ts rest) (hr : rest ≠ [])
    (hf : continuesPrimary rest.current.kind = false) : numberRange ts = .done range rest := by
  have hnumber := Grammar.isNumber_eq_false hf
  obtain ⟨min, max, minExclusive, maxExclusive⟩ := range
  cases min with
  | some x =>
    obtain ⟨t, mid, rfl, ht, h⟩ := front_cons_iff.1 h
    obtain ⟨u, mid, rfl, hu, h⟩ := front_cons_iff.1 h
    have hy := bound?_of_front hp.max_isBound h hr hnumber
    have hx : Number.readReal t.value = .ok x := by
      rw [value_of_form ht]
      exact Binary64.readReal_boundText (Number.isBound_iff.1 (hp.min_isBound x rfl))
    have hk : t.kind.isNumber = true := by
      rw [kind_of_form ht]
      rfl
    have hmin : minExclusive = false := hp.minExclusive_of_min (by simp)
    subst hmin
    have hu := kind_of_form hu
    cases maxExclusive with
    | false =>
      have hu : u.kind = .range := hu
      rw [numberRange_min_max hk hx (.inl hu) (h.ne_nil hr) hy, hu]
      rfl
    | true =>
      have hu : u.kind = .rangeExclusive := hu
      rw [numberRange_min_max hk hx (.inr hu) (h.ne_nil hr) hy, hu]
      rfl
  | none =>
    cases minExclusive with
    | true =>
      obtain ⟨u, mid, rfl, hu, h⟩ := front_cons_iff.1 h
      have hy := bound?_of_front hp.max_isBound h hr hnumber
      have hu := kind_of_form hu
      cases maxExclusive with
      | false =>
        have hu : u.kind = .exclusiveRange := hu
        rw [numberRange_max (.inl hu) (h.ne_nil hr) hy, hu]
        rfl
      | true =>
        have hu : u.kind = .exclusiveRangeExclusive := hu
        rw [numberRange_max (.inr hu) (h.ne_nil hr) hy, hu]
        rfl
    | false =>
      obtain rfl := front_nil_iff.1 h
      rw [hp.eq_of_inclusive rfl rfl]
      exact numberRange_none hnumber (Grammar.ne_of_continuesPrimary hf rfl)
        (Grammar.ne_of_continuesPrimary hf rfl)

theorem range?_of_front {range : Option NumberRange} (hp : ∀ r ∈ range, r.IsPrintable)
    (h : Front (NumberRange.optionForms range) ts rest) (hr : rest ≠ [])
    (hf : continuesPrimary rest.current.kind = false) : range? ts = .done range rest := by
  cases range with
  | none =>
    obtain rfl := front_nil_iff.1 h
    exact range?_of_ne (Grammar.ne_of_continuesPrimary hf rfl)
  | some range =>
    obtain ⟨t, mid, rfl, ht, h⟩ := front_cons_iff.1 h
    exact range?_cons (kind_of_form ht) (h.ne_nil hr)
      (numberRange_of_front (hp range rfl) h hr hf)

/-! ## Paths and indices -/

theorem path_of_front {path : String} (hp : IsPath path) (h : Front (pathForms path) ts rest)
    (hr : rest ≠ []) (hf : rest.current.kind ≠ .doubleColon) (hn : ts.length ≤ rounds) :
    Parse.path rounds ts = .done path rest := by
  obtain ⟨names, hne, hnames, rfl⟩ := hp
  rw [pathForms, pathNames_intercalate hne hnames] at h
  obtain ⟨name, names, rfl⟩ := List.exists_cons_of_ne_nil hne
  obtain ⟨t, mid, rfl, ht, h⟩ := front_cons_iff.1 h
  have hstep : ∀ m ∈ names, Yields pathStep [.symbol .doubleColon, .name m] (fun _ => True)
      (id · = id m) (mid.length + 1) := by
    intro m _ ts rest _ h hr _
    obtain ⟨u, ts, rfl, -, h⟩ := front_cons_iff.1 h
    obtain ⟨v, rfl, hv⟩ := front_singleton_iff.1 h
    exact ⟨v.value, pathStep_cons (kind_of_form hv) hr, value_of_form hv⟩
  have hfirst : ∀ m ∈ names, ∃ f fs, [Form.symbol .doubleColon, .name m] = f :: fs ∧
      (f.kind == .doubleColon) = true ∧ True :=
    fun m _ => ⟨_, _, rfl, rfl, trivial⟩
  obtain ⟨as, hc, hl, has⟩ := exists_chain (· == .doubleColon) hstep hfirst (Nat.lt_succ_self _) h hr
    trivial (by simpa using hf)
  rw [List.map_id, List.map_id] at has
  subst has
  rw [List.length_cons] at hn
  rw [path_cons (kind_of_form ht) (h.ne_nil hr) hc (by omega), value_of_form ht]
  rfl

theorem chain_index_of_front {indices : List Index} (hi : ∀ i ∈ indices, i.IsPrintable)
    (h : Front (indices.flatMap Index.forms) ts rest) (hr : rest ≠ [])
    (hf : rest.current.kind ≠ .leftBracket) :
    Chain (· == .leftBracket) index ts indices rest ∧ indices.length ≤ ts.length := by
  have hstep : ∀ i ∈ indices, Yields index i.forms (fun _ => True) (id · = id i) (ts.length + 1) := by
    intro i hmem ts rest _ h hr _
    cases i with
    | path names => exact (hi _ hmem).elim
    | key s =>
      obtain ⟨t, ts, rfl, -, h⟩ := front_cons_iff.1 h
      obtain ⟨u, ts, rfl, hu, h⟩ := front_cons_iff.1 h
      obtain ⟨v, rfl, hv⟩ := front_singleton_iff.1 h
      have hk := (Lexeme.spells_of_isKey (hi _ hmem)).2
      refine ⟨.key u.value, index_cons ?_ (kind_of_form hv) hr, ?_⟩
      · rw [kind_of_form hu]
        exact hk
      · rw [value_of_form hu]
        rfl
  have hfirst : ∀ i ∈ indices, ∃ f fs, i.forms = f :: fs ∧ (f.kind == .leftBracket) = true ∧ True := by
    intro i hmem
    cases i with
    | path names => exact (hi _ hmem).elim
    | key s => exact ⟨_, _, rfl, rfl, trivial⟩
  obtain ⟨as, hc, hl, has⟩ := exists_chain (· == .leftBracket) hstep hfirst (Nat.lt_succ_self _) h hr
    trivial (by simpa using hf)
  rw [List.map_id, List.map_id] at has
  subst has
  exact ⟨hc, by omega⟩

/-! ## Lists of items between commas -/

/-- Items with commas behind them, between an opening and a closing symbol, if there are any. -/
theorem bracketed_of_front {opening close : Token.Kind} {cause : ParseCause} {item : Parse α}
    {f : α → β} {xs : List ι} {g : ι → List Form} {r : β → γ}
    {s : ι → γ} (hitem : ∀ x ∈ xs, Yields item (g x) follow (fun a => r (f a) = s x) n)
    (hfirst : ∀ x ∈ xs, ∃ e es, g x = e :: es ∧ e.kind ≠ close) (hcomma : follow .comma)
    (h : Front (Form.enclose opening close (xs.flatMap fun x => g x ++ [.symbol .comma])) ts rest)
    (hlen : ts.length ≤ n) (hn : n ≤ rounds) (hr : rest ≠ []) (hf : rest.current.kind ≠ opening) :
    ∃ bs, bracketed rounds opening close cause item f ts = .done bs rest ∧ bs.map r = xs.map s := by
  by_cases hxs : xs = []
  · subst hxs
    obtain rfl := front_nil_iff.1 h
    exact ⟨[], bracketed_of_ne hf, rfl⟩
  have hne : (xs.flatMap fun x => g x ++ [Form.symbol .comma]).isEmpty = false := by
    obtain ⟨x, xs, rfl⟩ := List.exists_cons_of_ne_nil hxs
    simp
  rw [Form.enclose, hne, if_neg (by simp)] at h
  obtain ⟨t, mid, rfl, ht, h⟩ := front_cons_iff.1 h
  obtain ⟨last, hitems, h⟩ := front_append_iff.1 h
  obtain ⟨u, rfl, hu⟩ := front_singleton_iff.1 h
  have hstep : ∀ x ∈ xs, Yields (listStep close cause item f) (g x ++ [.symbol .comma])
      (fun _ => True) (r · = s x) n := by
    intro x hx ts rest hlen h hr _
    obtain ⟨mid, hg, h⟩ := front_append_iff.1 h
    obtain ⟨c, rfl, hc⟩ := front_singleton_iff.1 h
    have hk : c.kind = .comma := kind_of_form hc
    obtain ⟨a, ha, hra⟩ := hitem x hx ts _ hlen hg (by simp) (by rwa [current_cons, hk])
    exact ⟨f a, listStep_comma ha hk hr, hra⟩
  have hgoes : ∀ x ∈ xs, ∃ e es, g x ++ [Form.symbol .comma] = e :: es ∧
      (e.kind != close) = true ∧ True := by
    intro x hx
    obtain ⟨e, es, he, hk⟩ := hfirst x hx
    exact ⟨e, es ++ [.symbol .comma], by rw [he, List.cons_append], by simpa using hk, trivial⟩
  rw [List.length_cons] at hlen
  have hclose : u.kind = close := kind_of_form hu
  obtain ⟨bs, hc, hl, hbs⟩ := exists_chain (· != close) hstep hgoes (by omega) hitems (by simp) trivial
    (by simp [hclose])
  refine ⟨bs, bracketed_cons (kind_of_form ht) ?_ hc (by omega) hclose hr, hbs⟩
  exact hitems.ne_nil (by simp)

end Parse

namespace TypeExpr

open Form Parse Grammar

variable {ts rest : TokenStream} {n : Nat} {pos : Position}

/-! ## Forms of types -/

variable {path : String} {arguments : List TypeExpr} {t : TypeExpr}

theorem exists_pathForms_eq_cons (h : IsPath path) :
    ∃ s fs, pathForms path = name s :: fs := by
  obtain ⟨names, hne, hnames, rfl⟩ := h
  rw [pathForms, pathNames_intercalate hne hnames]
  obtain ⟨s, names, rfl⟩ := List.exists_cons_of_ne_nil hne
  exact ⟨s, _, rfl⟩

theorem exists_reference_forms_eq_cons
    (h : IsPath path) : ∃ s fs, forms (.reference pos path arguments) = name s :: fs := by
  obtain ⟨s, fs, hfs⟩ := exists_pathForms_eq_cons h
  exact ⟨s, _, by rw [forms, hfs, List.cons_append]⟩

theorem exists_eq_reference (h : t.isReference = true) :
    ∃ pos path arguments, t = .reference pos path arguments := by
  cases t with
  | reference pos path arguments => exact ⟨pos, path, arguments, rfl⟩
  | _ => cases h

/-- Every printed type starts with a token that starts a type. -/
theorem exists_forms_eq_cons (h : t.IsPrintable) :
    ∃ f fs, t.forms = f :: fs ∧ startsType f.kind = true := by
  cases t with
  | any _ => exact ⟨_, _, rfl, rfl⟩
  | boolean _ => exact ⟨_, _, rfl, rfl⟩
  | string _ length => exact ⟨_, _, rfl, rfl⟩
  | numeric _ name range =>
    have hall : ∀ s ∈ numericNames, startsType (keyword s).kind = true := by decide
    exact ⟨_, _, rfl, hall name h.1⟩
  | literal _ value typeName =>
    cases value with
    | text s => exact ⟨_, _, rfl, rfl⟩
    | flag b => cases b <;> exact ⟨_, _, rfl, rfl⟩
    | null => exact absurd rfl h.1
  | list _ element size => exact ⟨_, _, rfl, rfl⟩
  | tuple _ elements => exact ⟨_, _, rfl, rfl⟩
  | union _ members =>
    cases members with
    | nil => exact absurd h.1 (by simp)
    | cons t ts => exact ⟨_, _, rfl, rfl⟩
  | reference _ path arguments =>
    obtain ⟨s, fs, hfs⟩ := exists_reference_forms_eq_cons h.1
    exact ⟨_, fs, hfs, rfl⟩
  | indexed _ base indices =>
    obtain ⟨hreference, hbase, -⟩ := h
    obtain ⟨_, path, arguments, rfl⟩ := exists_eq_reference hreference
    obtain ⟨s, fs, hfs⟩ := exists_reference_forms_eq_cons hbase.1
    exact ⟨_, fs ++ indices.flatMap Index.forms, by rw [forms, hfs, List.cons_append], rfl⟩
  | _ => exact False.elim h

/-- The parser gives the type for its printed tokens, with other positions. -/
def ReadsBack (t : TypeExpr) : Prop :=
  ∀ n, Yields (primaryType (n + 1) (typeExpr n)) t.forms (continuesPrimary · = false)
    (·.unplaced = t.unplaced) (n + 1)

theorem ReadsBack.typeExpr (h : t.ReadsBack) (n : Nat) :
    Yields (typeExpr n) t.forms (continuesType · = false) (·.unplaced = t.unplaced) n := by
  intro ts rest hlen hfront hr hf
  obtain ⟨hprimary, hpipe⟩ := continuesPrimary_of_continuesType hf
  cases n with
  | zero => omega
  | succ n =>
    obtain ⟨a, ha, hu⟩ := h n ts rest hlen hfront hr hprimary
    exact ⟨a, unionType_single ha hpipe, hu⟩

theorem readsBack_any : ReadsBack (.any pos) := by
  intro n ts rest _ h hr _
  obtain ⟨t, rfl, ht⟩ := front_singleton_iff.1 h
  exact ⟨_, primaryType_any (kind_of_form ht) hr, rfl⟩

theorem readsBack_boolean : ReadsBack (.boolean pos) := by
  intro n ts rest _ h hr _
  obtain ⟨t, rfl, ht⟩ := front_singleton_iff.1 h
  exact ⟨_, primaryType_boolean (kind_of_form ht) hr, rfl⟩

theorem readsBack_string {length : Option NumberRange} (hp : ∀ r ∈ length, r.IsPrintable) :
    ReadsBack (.string pos length) := by
  intro n ts rest _ h hr hf
  obtain ⟨t, mid, rfl, ht, h⟩ := front_cons_iff.1 h
  exact ⟨_, primaryType_string (kind_of_form ht) (h.ne_nil hr) (range?_of_front hp h hr hf), rfl⟩

theorem readsBack_numeric {name : String} {range : Option NumberRange} (hn : name ∈ numericNames)
    (hp : ∀ r ∈ range, r.IsPrintable) : ReadsBack (.numeric pos name range) := by
  intro n ts rest _ h hr hf
  obtain ⟨t, mid, rfl, ht, h⟩ := front_cons_iff.1 h
  have hall : ∀ s ∈ numericNames, (keyword s).kind.isNumericType = true := by decide
  have hk : isNumericWord t = true := by
    rw [isNumericWord, kind_of_form ht]
    exact hall name hn
  refine ⟨_, primaryType_numeric hk (h.ne_nil hr) (range?_of_front hp h hr hf), ?_⟩
  rw [value_of_form ht]
  rfl

theorem readsBack_list {element : TypeExpr} {size : Option NumberRange} (he : element.ReadsBack)
    (hp : ∀ r ∈ size, r.IsPrintable) : ReadsBack (.list pos element size) := by
  intro n ts rest hlen h hr hf
  obtain ⟨t, mid, rfl, ht, h⟩ := front_cons_iff.1 h
  obtain ⟨last, hfront, h⟩ := front_append_iff.1 h
  obtain ⟨u, _, rfl, hu, h⟩ := front_cons_iff.1 h
  have ht : t.kind = .leftBracket := kind_of_form ht
  have hu : u.kind = .rightBracket := kind_of_form hu
  obtain ⟨a, ha, hunplaced⟩ := he.typeExpr n mid _ (by simpa using hlen) hfront (by simp)
    (by rw [current_cons, hu]; rfl)
  refine ⟨.list t.pos a size, ?_, by simp only [unplaced, hunplaced]⟩
  rw [primaryType_leftBracket (by rw [current_cons, ht])]
  exact listType_cons ht (hfront.ne_nil (by simp)) ha hu (h.ne_nil hr) (range?_of_front hp h hr hf)

theorem readsBack_literal {value : Literal} (hv : value ≠ .null) :
    ReadsBack (.literal pos value none) := by
  intro n ts rest _ h hr _
  cases value with
  | text s =>
    obtain ⟨t, rfl, ht⟩ := front_singleton_iff.1 h
    have hk : t.kind = .string := kind_of_form ht
    refine ⟨.literal t.pos (.text t.value) none, ?_, by rw [value_of_form ht]; rfl⟩
    rw [primaryType, current_bind, current_cons, hk]
    exact literal_cons hr
  | flag b =>
    obtain ⟨t, rfl, ht⟩ := front_singleton_iff.1 h
    have hk : t.kind = .boolean := by
      rw [kind_of_form ht]
      cases b <;> rfl
    refine ⟨.literal t.pos (.flag (t.value == "true")) none, ?_, ?_⟩
    · rw [primaryType, current_bind, current_cons, hk]
      exact literal_cons hr
    · rw [value_of_form ht]
      cases b <;> rfl
  | null => exact absurd rfl hv

/-- The types between the parentheses of a tuple, each with a comma behind it, are a first one and
others with commas in front of them, and one comma is left. -/
theorem cons_flatMap_append_singleton {ι κ : Type} (c : κ) (g : ι → List κ) (xs : List ι) :
    c :: xs.flatMap (fun x => g x ++ [c]) = xs.flatMap (fun x => c :: g x) ++ [c] := by
  induction xs with
  | nil => rfl
  | cons x xs ih =>
    rw [List.flatMap_cons, List.flatMap_cons, List.append_assoc, List.singleton_append, ih]
    simp

theorem reduceOption_map_some {ι κ : Type} (g : ι → κ) (xs : List ι) :
    (xs.map fun x => some (g x)).reduceOption = xs.map g := by
  induction xs with
  | nil => rfl
  | cons x xs ih => simp [ih]

theorem current_kind_ne {k : Token.Kind} (hp : t.IsPrintable)
    (h : Front t.forms ts rest) (hk : startsType k = false) : ts.current.kind ≠ k := by
  obtain ⟨f, fs, hfs, hstarts⟩ := exists_forms_eq_cons hp
  rw [hfs] at h
  obtain ⟨u, _, rfl, hu, -⟩ := front_cons_iff.1 h
  rw [current_cons, kind_of_form hu]
  rintro rfl
  rw [hk] at hstarts
  cases hstarts

theorem yields_tupleMember (h : t.ReadsBack) (hp : t.IsPrintable) (n : Nat) :
    Yields (tupleMember (typeExpr n)) (symbol .comma :: t.forms) (continuesType · = false)
      (Option.map unplaced · = some t.unplaced) (n + 1) := by
  intro ts rest hlen hfront hr hf
  obtain ⟨c, mid, rfl, -, hfront⟩ := front_cons_iff.1 hfront
  obtain ⟨a, ha, hu⟩ := h.typeExpr n mid rest (by simpa using hlen) hfront hr hf
  exact ⟨some a, tupleMember_some (hfront.ne_nil hr) (current_kind_ne hp hfront rfl) ha,
    congrArg some hu⟩

theorem readsBack_tuple {elements : List TypeExpr} (hp : ∀ t ∈ elements, t.IsPrintable)
    (hb : ∀ t ∈ elements, t.ReadsBack) : ReadsBack (.tuple pos elements) := by
  intro n ts rest hlen h hr hf
  obtain ⟨t, mid, rfl, ht, h⟩ := front_cons_iff.1 h
  have ht : t.kind = .leftParen := kind_of_form ht
  rw [primaryType_leftParen (by rw [current_cons, ht])]
  cases elements with
  | nil =>
    obtain ⟨u, rfl, hu⟩ := front_singleton_iff.1 h
    exact ⟨_, parenthesizedType_empty ht (kind_of_form hu) hr, rfl⟩
  | cons first others =>
    rw [itemForms, itemForms_eq, cons_flatMap_append_singleton, List.append_assoc, List.append_assoc]
      at h
    obtain ⟨next, hfront, h⟩ := front_append_iff.1 h
    obtain ⟨last, hothers, h⟩ := front_append_iff.1 h
    obtain ⟨c, _, rfl, hc, h⟩ := front_cons_iff.1 h
    obtain ⟨u, rfl, hu⟩ := front_singleton_iff.1 h
    have hc : c.kind = .comma := kind_of_form hc
    have hu : u.kind = .rightParen := kind_of_form hu
    have hle : next.length ≤ mid.length := by
      rw [hfront.length_eq]
      omega
    -- Behind the last comma the closing parenthesis ends the tuple.
    have htail : Chain (· == .comma) (tupleMember (typeExpr n)) (c :: u :: rest) [none] (u :: rest) :=
      .cons (by simp [hc]) (tupleMember_none (by simp) (by rw [current_cons, hu]))
        (.nil (by simp [hu]))
    obtain ⟨as, hchain, hl, has⟩ := exists_chain_append (· == .comma)
      (fun t ht => yields_tupleMember (hb t (List.mem_cons_of_mem _ ht))
        (hp t (List.mem_cons_of_mem _ ht)) n)
      (fun t _ => ⟨_, _, rfl, rfl, rfl⟩) (by simp at hlen; omega) hothers (by simp)
      (by rw [current_cons, hc]; rfl) htail
    have hcomma : next.current.kind = .comma := by
      have := hchain.starts (by simp)
      simpa using this
    obtain ⟨a, ha, hunplaced⟩ := (hb first List.mem_cons_self).typeExpr n mid next
      (by simpa using hlen) hfront (hothers.ne_nil (by simp)) (by rw [hcomma]; rfl)
    refine ⟨.tuple a.pos (a :: (as ++ [none]).reduceOption), ?_, ?_⟩
    · refine parenthesizedType_tuple ht (hfront.ne_nil (hothers.ne_nil (by simp))) ?_ ha hcomma hchain
        ?_ hu hr
      · exact current_kind_ne (hp first List.mem_cons_self) hfront rfl
      · simp at hl hlen ⊢
        omega
    · have hreduce : as.reduceOption.map unplaced = others.map unplaced := by
        rw [← List.reduceOption_map, has, reduceOption_map_some]
      simp [unplaced, unplacedAll_eq, hunplaced, List.reduceOption_append, hreduce]

theorem yields_unionStep (h : t.ReadsBack) (n : Nat) :
    Yields (unionStep (n + 1) (typeExpr n)) (symbol .pipe :: t.forms) (continuesPrimary · = false)
      (·.unplaced = t.unplaced) (n + 1) := by
  intro ts rest hlen hfront hr hf
  obtain ⟨bar, mid, rfl, -, hfront⟩ := front_cons_iff.1 hfront
  rw [List.length_cons] at hlen
  obtain ⟨a, ha, hu⟩ := h n mid rest (by omega) hfront hr hf
  exact ⟨a, unionStep_cons (hfront.ne_nil hr) ha, hu⟩

theorem readsBack_union {members : List TypeExpr} (hm : 2 ≤ members.length)
    (hp : ∀ t ∈ members, t.IsPrintable) (hb : ∀ t ∈ members, t.ReadsBack) :
    ReadsBack (.union pos members) := by
  intro n ts rest hlen h hr hf
  cases members with
  | nil => simp at hm
  | cons first others =>
    rw [forms, alternativeForms_eq] at h
    obtain ⟨t, mid, rfl, ht, h⟩ := front_cons_iff.1 h
    obtain ⟨next, hfront, h⟩ := front_append_iff.1 h
    obtain ⟨last, hothers, h⟩ := front_append_iff.1 h
    obtain ⟨u, rfl, hu⟩ := front_singleton_iff.1 h
    have ht : t.kind = .leftParen := kind_of_form ht
    have hu : u.kind = .rightParen := kind_of_form hu
    rw [List.length_cons] at hlen hm
    have hle : next.length ≤ mid.length := by
      rw [hfront.length_eq]
      omega
    cases n with
    | zero => omega
    | succ n =>
      -- The alternatives are parsed one level below the parentheses.
      obtain ⟨as, hchain, hl, has⟩ := exists_chain (· == .pipe)
        (fun t ht => yields_unionStep (hb t (List.mem_cons_of_mem _ ht)) n)
        (fun t _ => ⟨_, _, rfl, rfl, rfl⟩) (by omega) hothers (by simp)
        (by rw [current_cons, hu]; rfl) (by simp [hu])
      have hne : as ≠ [] := by
        rintro rfl
        have := congrArg List.length has
        simp at this
        omega
      have hpipe : next.current.kind = .pipe := by simpa using hchain.starts hne
      obtain ⟨a, ha, hunplaced⟩ := hb first List.mem_cons_self n mid next (by omega) hfront
        (hothers.ne_nil (by simp)) (by rw [hpipe]; rfl)
      refine ⟨.union a.pos (a :: as), ?_, by simp [unplaced, unplacedAll_eq, hunplaced, has]⟩
      rw [primaryType_leftParen (by rw [current_cons, ht])]
      refine parenthesizedType_group ht (hfront.ne_nil (hothers.ne_nil (by simp)))
        (current_kind_ne (hp first List.mem_cons_self) hfront rfl) ?_ hu hr
      exact unionType_several ha hpipe hchain (by omega)

/-! ## References -/

/-- The path and the arguments of a reference, in front of a token that goes on with neither. -/
theorem reference_of_front (hpath : IsPath path)
    (hp : ∀ t ∈ arguments, t.IsPrintable) (hb : ∀ t ∈ arguments, t.ReadsBack)
    (hlen : ts.length < n + 1) (h : Front (forms (.reference pos path arguments)) ts rest)
    (hr : rest ≠ []) (hcolon : rest.current.kind ≠ .doubleColon)
    (hangle : rest.current.kind ≠ .leftAngle) :
    ∃ mid as, Parse.path (n + 1) ts = .done path mid ∧
      typeArguments (n + 1) (typeExpr n) mid = .done as rest ∧
      as.map unplaced = arguments.map unplaced := by
  rw [forms, itemForms_eq] at h
  obtain ⟨mid, hfront, h⟩ := front_append_iff.1 h
  have hlt : mid.length < ts.length := by
    obtain ⟨s, fs, hfs⟩ := exists_pathForms_eq_cons hpath
    rw [hfront.length_eq, hfs, List.length_cons]
    omega
  have hnext : mid.current.kind ≠ .doubleColon := by
    have henclose := h
    unfold enclose at henclose
    split at henclose
    · obtain rfl := front_nil_iff.1 henclose
      exact hcolon
    · obtain ⟨t, _, rfl, ht, -⟩ := front_cons_iff.1 henclose
      rw [current_cons, kind_of_form ht]
      decide
  have hfirst : ∀ t ∈ arguments, ∃ e es, t.forms = e :: es ∧ e.kind ≠ .rightAngle := by
    intro t ht
    obtain ⟨f, fs, hfs, hk⟩ := exists_forms_eq_cons (hp t ht)
    refine ⟨f, fs, hfs, ?_⟩
    intro hclose
    rw [hclose] at hk
    cases hk
  have harguments : ∃ as, typeArguments (n + 1) (typeExpr n) mid = .done as rest ∧
      as.map unplaced = arguments.map unplaced :=
    bracketed_of_front (fun t ht => (hb t ht).typeExpr n) hfirst rfl h (by omega) (Nat.le_succ n) hr
      hangle
  obtain ⟨as, has, hmap⟩ := harguments
  exact ⟨mid, as, path_of_front hpath hfront (h.ne_nil hr) hnext (by omega), has, hmap⟩

theorem current_kind_of_reference (hpath : IsPath path)
    (h : Front (forms (.reference pos path arguments)) ts rest) : ts.current.kind = .identifier := by
  obtain ⟨s, fs, hfs⟩ := exists_reference_forms_eq_cons hpath
  rw [hfs] at h
  obtain ⟨t, _, rfl, ht, -⟩ := front_cons_iff.1 h
  exact kind_of_form ht

theorem readsBack_reference (hpath : IsPath path)
    (hp : ∀ t ∈ arguments, t.IsPrintable) (hb : ∀ t ∈ arguments, t.ReadsBack) :
    ReadsBack (.reference pos path arguments) := by
  intro n ts rest hlen h hr hf
  obtain ⟨mid, as, hpathRun, harguments, has⟩ := reference_of_front hpath hp hb hlen h hr
    (ne_of_continuesPrimary hf rfl) (ne_of_continuesPrimary hf rfl)
  refine ⟨.reference ts.current.pos path as, ?_, by simp only [unplaced, unplacedAll_eq, has]⟩
  rw [primaryType_identifier (current_kind_of_reference hpath h)]
  exact referenceType_plain hpathRun harguments (ne_of_continuesPrimary hf rfl)

theorem readsBack_indexed {basePos : Position}
    {indices : List Index} (hpath : IsPath path) (hp : ∀ t ∈ arguments, t.IsPrintable)
    (hb : ∀ t ∈ arguments, t.ReadsBack) (hne : indices ≠ []) (hi : ∀ i ∈ indices, i.IsPrintable) :
    ReadsBack (.indexed pos (.reference basePos path arguments) indices) := by
  intro n ts rest hlen h hr hf
  obtain ⟨last, hbase, hindices⟩ := front_append_iff.1 h
  obtain ⟨hchain, hcount⟩ := chain_index_of_front hi hindices hr (ne_of_continuesPrimary hf rfl)
  have hbracket : last.current.kind = .leftBracket := by simpa using hchain.starts hne
  obtain ⟨mid, as, hpathRun, harguments, has⟩ := reference_of_front hpath hp hb hlen hbase
    (hindices.ne_nil hr) (by rw [hbracket]; decide) (by rw [hbracket]; decide)
  have hle : last.length ≤ ts.length := by
    rw [hbase.length_eq]
    omega
  refine ⟨.indexed ts.current.pos (.reference ts.current.pos path as) indices, ?_,
    by simp only [unplaced, unplacedAll_eq, has]⟩
  rw [primaryType_identifier (current_kind_of_reference hpath hbase)]
  exact referenceType_indexed hpathRun harguments hbracket hchain (by omega)

/-! ## All types -/

/-- Every type that can be printed is parsed back. -/
theorem readsBack (t : TypeExpr) (h : t.IsPrintable) : t.ReadsBack := by
  cases t with
  | any pos => exact readsBack_any
  | boolean pos => exact readsBack_boolean
  | string pos length => exact readsBack_string h
  | numeric pos name range => exact readsBack_numeric h.1 h.2
  | literal pos value typeName =>
    obtain ⟨hv, rfl⟩ := h
    exact readsBack_literal hv
  | list pos element size => exact readsBack_list (readsBack element h.1) h.2
  | tuple pos elements =>
    have hp := arePrintable_iff.1 h
    exact readsBack_tuple hp fun t ht => readsBack t (hp t ht)
  | union pos members =>
    have hp := arePrintable_iff.1 h.2
    exact readsBack_union h.1 hp fun t ht => readsBack t (hp t ht)
  | reference pos path arguments =>
    have hp := arePrintable_iff.1 h.2
    exact readsBack_reference h.1 hp fun t ht => readsBack t (hp t ht)
  | indexed pos base indices =>
    obtain ⟨hreference, hbase, hne, hi⟩ := h
    obtain ⟨basePos, path, arguments, rfl⟩ := exists_eq_reference hreference
    have hp := arePrintable_iff.1 hbase.2
    exact readsBack_indexed hbase.1 hp (fun t ht => readsBack t (hp t ht)) hne hi
  | _ => exact False.elim h
termination_by t

end TypeExpr

end McdocSchema
