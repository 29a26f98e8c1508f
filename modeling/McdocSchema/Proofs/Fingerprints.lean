import Mathlib.Data.List.Nodup
import McdocSchema.Proofs.NumberText
import McdocSchema.Value.Fingerprint

/-!
# What fingerprints tell apart

The stream of a value is a row of pieces, one for each value in it. The row can be read back: it tells
the value up to the order of its entries (`same_of_pieces`), which has no part in the stream
(`Same.stream_eq`). But a text and a number do not say where they end. So two values have one stream just
if they are the same or if, where their rows differ first, the one piece goes on with what follows the
other (`stream_eq_iff`).
-/

namespace McdocSchema.Value

variable {depth m n : Nat} {v w : Value} {xs ys entries : List (String × Value)}

/-! ## Pieces of text -/

theorem ascii_append (s t : String) : ascii (s ++ t) = ascii s ++ ascii t := by
  simp [ascii, Text.Utf8.encode]

theorem ascii_injective : Function.Injective ascii := by
  intro s t h
  have henc : s.toList.utf8Encode = t.toList.utf8Encode := congrArg List.toByteArray h
  have hdec := congrArg ByteArray.utf8Decode? henc
  rw [List.utf8Decode?_utf8Encode, List.utf8Decode?_utf8Encode] at hdec
  exact String.toList_inj.1 (Array.toList_inj.2 (Option.some.inj hdec))

theorem intText_injective : Function.Injective Number.intText := by
  intro m n h
  rw [Number.intText_eq, Number.intText_eq] at h
  have hsign := congrArg Number.takeSign (String.ofList_injective h)
  have hm := Number.takeSign_signed (m < 0) m.natAbs []
  have hn := Number.takeSign_signed (n < 0) n.natAbs []
  rw [List.append_nil] at hm hn
  rw [hm, hn, Prod.mk.injEq, decide_eq_decide] at hsign
  have habs := congrArg Number.digitsValue hsign.2
  rw [Number.digitsValue_natDigits, Number.digitsValue_natDigits] at habs
  omega

/-! ## Streams of lists and dictionaries -/

theorem stream_of_lt (h : maxDepth < depth) (v : Value) : stream depth v = tooDeep := by
  rw [stream.eq_def, if_pos h]

theorem stream_text (depth : Nat) (s : String) : stream depth (.text s) = nameStream depth s := by
  rw [stream, nameStream]

theorem nameStream_of_le (h : depth ≤ maxDepth) (s : String) :
    nameStream depth s = nameStream 0 s := by
  rw [nameStream, if_neg (by omega), nameStream, if_neg (by decide)]

theorem streamItems_eq (depth n : Nat) (items : List Value) :
    streamItems depth n items = ((items.take n).map (stream depth)).flatten := by
  induction items generalizing n with
  | nil => cases n <;> rfl
  | cons item items ih =>
    cases n with
    | zero => rfl
    | succ n => simp [streamItems, ih]

theorem stream_list (h : depth ≤ maxDepth) (items : List Value) :
    stream depth (.list items) = ascii ("L" ++ Number.intText items.length) ++
      ((items.take maxItems).map (stream (depth + 1))).flatten := by
  rw [stream, if_neg (by omega), streamItems_eq]

/-- The entries of a dictionary whose keys are texts. -/
def texts (entries : List (String × Value)) : List (Value × Value) :=
  entries.map fun e => (.text e.1, e.2)

/-- What an entry writes, with the digest of its key. -/
def entry (depth : Nat) (e : String × Value) : String × List UInt8 :=
  (digestText (nameStream depth e.1), nameStream depth e.1 ++ stream depth e.2)

theorem entryStreams_texts (depth : Nat) (entries : List (String × Value)) :
    entryStreams depth (texts entries) = entries.map (entry depth) := by
  induction entries with
  | nil => rfl
  | cons e entries ih =>
    show entryStreams depth ((.text e.1, e.2) :: texts entries) = entry depth e :: _
    rw [entryStreams, ih, stream_text]
    rfl

theorem stream_dict (h : depth ≤ maxDepth) (entries : List (String × Value)) :
    stream depth (.dict (texts entries)) = ascii ("D" ++ Number.intText entries.length) ++
      ((entries.map (entry (depth + 1))).mergeSort byKey).flatMap (·.2) := by
  rw [stream, if_neg (by omega), entryStreams_texts, texts, List.length_map]

/-! ## The order of entries -/

/-- The keys have different digests, and so they are different. -/
def Separated (entries : List (String × Value)) : Prop :=
  (entries.map fun e => digestText (nameStream 0 e.1)).Nodup

instance (entries : List (String × Value)) : Decidable (Separated entries) :=
  inferInstanceAs (Decidable (List.Nodup _))

/-- Equal but for the order of the entries of dictionaries. -/
inductive Same : Value → Value → Prop
  | refl (v : Value) : Same v v
  | list {xs ys : List Value} (hlength : xs.length = ys.length)
      (hitems : ∀ p ∈ xs.zip ys, Same p.1 p.2) : Same (.list xs) (.list ys)
  | dict {xs ys : List (String × Value)} (hdigests : Separated xs)
      (hkeys : (xs.map Prod.fst).Perm (ys.map Prod.fst))
      (hvalues : ∀ k v w, (k, v) ∈ xs → (k, w) ∈ ys → Same v w) :
      Same (.dict (texts xs)) (.dict (texts ys))

theorem map_eq_map_of_zip {α β : Type} {f : α → β} {xs ys : List α} (hlength : xs.length = ys.length)
    (h : ∀ p ∈ xs.zip ys, f p.1 = f p.2) : xs.map f = ys.map f := by
  have hzip : (xs.zip ys).map (fun p => f p.1) = (xs.zip ys).map fun p => f p.2 :=
    List.map_congr_left h
  calc xs.map f = ((xs.zip ys).map Prod.fst).map f := by rw [List.map_fst_zip hlength.le]
    _ = ((xs.zip ys).map Prod.snd).map f := by rw [List.map_map, List.map_map]; exact hzip
    _ = ys.map f := by rw [List.map_snd_zip hlength.ge]

theorem byKey_iff {a b : String × List UInt8} : byKey a b = true ↔ a.1 ≤ b.1 :=
  decide_eq_true_iff

/-- Sorting forgets the order if nothing else has the same key. -/
theorem mergeSort_byKey_eq {xs ys : List (String × List UInt8)} (h : xs.Perm ys)
    (hkeys : ∀ a ∈ xs, ∀ b ∈ xs, a.1 = b.1 → a = b) : xs.mergeSort byKey = ys.mergeSort byKey := by
  have hsorted (l : List (String × List UInt8)) : (l.mergeSort byKey).Pairwise (byKey · ·) := by
    apply List.pairwise_mergeSort
    · intro a b c hab hbc
      exact byKey_iff.2 (String.le_trans (byKey_iff.1 hab) (byKey_iff.1 hbc))
    · intro a b
      rw [Bool.or_eq_true, byKey_iff, byKey_iff]
      exact String.le_total a.1 b.1
  refine List.Perm.eq_of_pairwise ?_ (hsorted xs) (hsorted ys)
    ((List.mergeSort_perm xs _).trans (h.trans (List.mergeSort_perm ys _).symm))
  intro a b ha hb hab hba
  refine hkeys a (List.mem_mergeSort.1 ha) b (h.mem_iff.2 (List.mem_mergeSort.1 hb)) ?_
  exact String.le_antisymm (byKey_iff.1 hab) (byKey_iff.1 hba)

/-- Behind the greatest depth all entries write the same, and up to it their keys tell them apart. -/
theorem mergeSort_entries_eq (hdigests : Separated xs)
    (hkeys : (xs.map Prod.fst).Perm (ys.map Prod.fst)) (depth : Nat)
    (hvalues : ∀ k v w, (k, v) ∈ xs → (k, w) ∈ ys → stream depth v = stream depth w) :
    (xs.map (entry depth)).mergeSort byKey = (ys.map (entry depth)).mergeSort byKey := by
  rcases Nat.lt_or_ge maxDepth depth with hd | hd
  · have hentry : entry depth = fun _ => (digestText tooDeep, tooDeep ++ tooDeep) := by
      funext e
      rw [entry, nameStream, if_pos hd, stream_of_lt hd]
    have hlength : xs.length = ys.length := by simpa using hkeys.length_eq
    rw [hentry, List.map_const', List.map_const', hlength]
  · have hys : Separated ys := by
      have hperm := hkeys.map fun k => digestText (nameStream 0 k)
      rw [List.map_map, List.map_map] at hperm
      exact hperm.nodup_iff.1 hdigests
    have hfst : Prod.fst ∘ entry depth = fun e : String × Value => digestText (nameStream 0 e.1) := by
      funext e
      exact congrArg digestText (nameStream_of_le hd e.1)
    have hnodup {l : List (String × Value)} (h : Separated l) :
        ((l.map (entry depth)).map Prod.fst).Nodup := by
      rw [List.map_map, hfst]
      exact h
    refine mergeSort_byKey_eq ?_ fun a ha b hb => List.inj_on_of_nodup_map (hnodup hdigests) ha hb
    rw [List.perm_ext_iff_of_nodup (hnodup hdigests).of_map (hnodup hys).of_map]
    intro a
    -- an entry of either side has a partner with its key on the other one
    constructor
    · intro ha
      obtain ⟨⟨k, v⟩, hv, rfl⟩ := List.mem_map.1 ha
      obtain ⟨⟨_, w⟩, hw, rfl⟩ := List.mem_map.1 (hkeys.mem_iff.1 (List.mem_map_of_mem hv))
      exact List.mem_map.2 ⟨_, hw, by rw [entry, entry, hvalues _ _ _ hv hw]⟩
    · intro ha
      obtain ⟨⟨k, w⟩, hw, rfl⟩ := List.mem_map.1 ha
      obtain ⟨⟨_, v⟩, hv, rfl⟩ := List.mem_map.1 (hkeys.mem_iff.2 (List.mem_map_of_mem hw))
      exact List.mem_map.2 ⟨_, hv, by rw [entry, entry, hvalues _ _ _ hv hw]⟩

/-- The order of entries does not show in a stream, at whatever depth. -/
theorem Same.stream_eq (h : Same v w) (depth : Nat) : stream depth v = stream depth w := by
  induction h generalizing depth with
  | refl v => rfl
  | list hlength _ ih =>
    rcases Nat.lt_or_ge maxDepth depth with hd | hd
    · rw [stream_of_lt hd, stream_of_lt hd]
    · rw [stream_list hd, stream_list hd, hlength, List.map_take, List.map_take,
        map_eq_map_of_zip hlength fun p hp => ih p hp (depth + 1)]
  | dict hdigests hkeys _ ih =>
    rcases Nat.lt_or_ge maxDepth depth with hd | hd
    · rw [stream_of_lt hd, stream_of_lt hd]
    · have hlength := hkeys.length_eq
      rw [List.length_map, List.length_map] at hlength
      rw [stream_dict hd, stream_dict hd, hlength, mergeSort_entries_eq hdigests hkeys (depth + 1)
        fun k v w hv hw => ih k v w hv hw (depth + 1)]

/-! ## The pieces of a stream -/

mutual

/-- What a value and the values in it write, one after the other. A value that is neither a list nor a
dictionary is taken as one piece. -/
def pieces : Value → List (List UInt8)
  | .list items => ascii ("L" ++ Number.intText items.length) :: itemPieces items
  | .dict entries =>
    ascii ("D" ++ Number.intText entries.length) ::
      ((entryPieces entries).mergeSort fun a b => a.1 ≤ b.1).flatMap (·.2)
  | v => [stream 0 v]

def itemPieces : List Value → List (List UInt8)
  | [] => []
  | item :: items => pieces item ++ itemPieces items

/-- The pieces of entries, each with the digest of its key. -/
def entryPieces : List (Value × Value) → List (String × List (List UInt8))
  | [] => []
  | (key, value) :: entries =>
    (digestText (stream 0 key), stream 0 key :: pieces value) :: entryPieces entries

end

/-- Values made of nothing, truth values, integers, texts, lists and dictionaries with texts for keys,
nested `n` deep at most. -/
inductive Plain : Nat → Value → Prop
  | none (n : Nat) : Plain n .none
  | bool (n : Nat) (b : Bool) : Plain n (.bool b)
  | int (n : Nat) (z : Int) : Plain n (.int z)
  | text (n : Nat) (s : String) : Plain n (.text s)
  | list {n : Nat} {items : List Value} (hlength : items.length ≤ maxItems)
      (hitems : ∀ v ∈ items, Plain n v) : Plain (n + 1) (.list items)
  | dict {n : Nat} {entries : List (String × Value)} (hdigests : Separated entries)
      (hvalues : ∀ e ∈ entries, Plain n e.2) : Plain (n + 1) (.dict (texts entries))

theorem itemPieces_eq (items : List Value) : itemPieces items = items.flatMap pieces := by
  induction items with
  | nil => rfl
  | cons item items ih => rw [itemPieces, ih, List.flatMap_cons]

theorem entryPieces_texts (entries : List (String × Value)) :
    entryPieces (texts entries) = entries.map fun e =>
      (digestText (nameStream 0 e.1), nameStream 0 e.1 :: pieces e.2) := by
  induction entries with
  | nil => rfl
  | cons e entries ih =>
    show entryPieces ((.text e.1, e.2) :: texts entries) = _
    rw [entryPieces, ih, stream_text]
    rfl

/-- Entries by the digests of their keys. -/
def inOrder (entries : List (String × Value)) : List (String × Value) :=
  entries.mergeSort fun a b => digestText (nameStream 0 a.1) ≤ digestText (nameStream 0 b.1)

theorem mergeSort_digests {α : Type} (f : String × Value → α) (entries : List (String × Value)) :
    (entries.map fun e => (digestText (nameStream 0 e.1), f e)).mergeSort (fun a b => a.1 ≤ b.1) =
      (inOrder entries).map fun e => (digestText (nameStream 0 e.1), f e) := by
  unfold inOrder
  rw [List.map_mergeSort]
  intros
  rfl

theorem pieces_dict (entries : List (String × Value)) :
    pieces (.dict (texts entries)) = ascii ("D" ++ Number.intText entries.length) ::
      (inOrder entries).flatMap fun e => nameStream 0 e.1 :: pieces e.2 := by
  rw [pieces, entryPieces_texts, mergeSort_digests, List.flatMap_map, texts, List.length_map]

theorem stream_dict_inOrder (h : depth + 1 ≤ maxDepth) (entries : List (String × Value)) :
    stream depth (.dict (texts entries)) = ascii ("D" ++ Number.intText entries.length) ++
      (inOrder entries).flatMap fun e => nameStream 0 e.1 ++ stream (depth + 1) e.2 := by
  have hentry : entry (depth + 1) = fun e =>
      (digestText (nameStream 0 e.1), nameStream 0 e.1 ++ stream (depth + 1) e.2) := by
    funext e
    rw [entry, nameStream_of_le h]
  have hsort := mergeSort_digests (fun e => nameStream 0 e.1 ++ stream (depth + 1) e.2) entries
  rw [stream_dict (by omega), hentry]
  unfold byKey
  rw [hsort, List.flatMap_map]

/-- A stream is made of its pieces. -/
theorem Plain.stream_eq (h : Plain n v) (depth : Nat) (hd : depth + n ≤ maxDepth) :
    stream depth v = (pieces v).flatten := by
  induction h generalizing depth with
  | none n | bool n b | int n z | text n s =>
    rw [pieces, List.flatten_singleton, stream, stream, if_neg (show ¬maxDepth < depth by omega),
      if_neg (show ¬maxDepth < 0 by decide)]
    all_goals simp
  | list hlength _ ih =>
    rw [stream_list (by omega), pieces, itemPieces_eq, List.take_of_length_le hlength,
      List.flatten_cons, List.flatMap_def, List.flatten_flatten, List.map_map,
      List.map_congr_left fun v hv => ih v hv (depth + 1) (by omega)]
    rfl
  | dict _ _ ih =>
    rw [stream_dict_inOrder (by omega), pieces_dict, List.flatten_cons, List.flatMap_def,
      List.flatMap_def, List.flatten_flatten, List.map_map]
    congr 2
    refine List.map_congr_left fun e he => ?_
    rw [ih e (List.mem_mergeSort.1 he) (depth + 1) (by omega)]
    rfl

/-! ## Reading a row of pieces -/

theorem count_injective {mark : String}
    (h : ascii (mark ++ Number.intText m) = ascii (mark ++ Number.intText n)) : m = n := by
  rw [ascii_append, ascii_append] at h
  exact Int.ofNat.inj (intText_injective (ascii_injective (List.append_cancel_left h)))

/-- The sort of value that begins with a text. -/
def sortOf (text : String) : String :=
  match text.toList.head? with
  | some 'N' => "NoneType"
  | some 'T' | some 'F' => "bool"
  | some 's' => "str"
  | some 'L' => "list"
  | some 'D' => "dict"
  | _ => "int"

theorem sortOf_intText (z : Int) : sortOf (Number.intText z) = "int" := by
  rw [Number.intText_eq, sortOf, String.toList_ofList]
  by_cases hz : z < 0
  · rw [decide_eq_true hz]
    rfl
  · rw [decide_eq_false hz]
    obtain ⟨d, ds, hd⟩ := List.exists_cons_of_ne_nil (Number.natDigits_ne_nil z.natAbs)
    have hdigit : d.isDigit = true := Number.isDigit_of_mem_natDigits (hd ▸ List.mem_cons_self)
    rw [Number.Binary64.signed, if_neg Bool.false_ne_true, hd]
    split <;> simp_all

/-- The first piece of a value tells its sort. -/
theorem Plain.exists_pieces_eq (h : Plain n v) :
    ∃ text rest, pieces v = ascii text :: rest ∧ sortOf text = v.sortName := by
  cases h with
  | none => exact ⟨"None", [], rfl, rfl⟩
  | bool n b => exact ⟨if b then "True" else "False", [], rfl, by cases b <;> rfl⟩
  | int n z => exact ⟨_, [], rfl, sortOf_intText z⟩
  | text n s => exact ⟨"s" ++ s, [], by rw [ascii_append]; rfl, by simp [sortOf, sortName]⟩
  | list => exact ⟨_, _, rfl, by simp [sortOf, sortName]⟩
  | dict => exact ⟨_, _, rfl, by simp [sortOf, sortName]⟩

theorem Plain.sortName_eq {x y : List (List UInt8)} (hv : Plain m v) (hw : Plain n w)
    (h : pieces v ++ x = pieces w ++ y) : v.sortName = w.sortName := by
  obtain ⟨s, _, hs, hsort⟩ := hv.exists_pieces_eq
  obtain ⟨t, _, ht, hsort'⟩ := hw.exists_pieces_eq
  rw [hs, ht, List.cons_append, List.cons_append] at h
  rw [← hsort, ← hsort', ascii_injective (List.cons.inj h).1]

/-- Rows of equally many parts are read part by part. -/
theorem zip_of_flatMap_append_eq {α β : Type} {R : α → α → Prop} {f : α → List β} {xs ys : List α}
    (hlength : xs.length = ys.length) {x y : List β}
    (hread : ∀ a ∈ xs, ∀ b ∈ ys, ∀ x y, f a ++ x = f b ++ y → R a b ∧ x = y)
    (h : xs.flatMap f ++ x = ys.flatMap f ++ y) : (∀ p ∈ xs.zip ys, R p.1 p.2) ∧ x = y := by
  induction xs generalizing ys with
  | nil =>
    obtain rfl : ys = [] := List.length_eq_zero_iff.1 hlength.symm
    exact ⟨by simp, h⟩
  | cons a xs ih =>
    cases ys with
    | nil => simp at hlength
    | cons b ys =>
      rw [List.flatMap_cons, List.flatMap_cons, List.append_assoc, List.append_assoc] at h
      obtain ⟨hab, h⟩ := hread a List.mem_cons_self b List.mem_cons_self _ _ h
      obtain ⟨hrest, hxy⟩ := ih (by simpa using hlength)
        (fun a ha b hb => hread a (List.mem_cons_of_mem _ ha) b (List.mem_cons_of_mem _ hb)) h
      refine ⟨fun p hp => ?_, hxy⟩
      rcases List.mem_cons.1 hp with rfl | hp
      · exact hab
      · exact hrest p hp

theorem Separated.nodup_keys (h : Separated entries) : (entries.map Prod.fst).Nodup := by
  apply List.Nodup.of_map fun k => digestText (nameStream 0 k)
  rw [List.map_map]
  exact h

/-- Dictionaries whose entries agree one by one, in the order of the digests, are the same. -/
theorem same_dict (hx : Separated xs) (hy : Separated ys) (hlength : xs.length = ys.length)
    (h : ∀ p ∈ (inOrder xs).zip (inOrder ys), p.1.1 = p.2.1 ∧ Same p.1.2 p.2.2) :
    Same (.dict (texts xs)) (.dict (texts ys)) := by
  have hperm (l : List (String × Value)) : (inOrder l).Perm l := List.mergeSort_perm l _
  have hlen : (inOrder xs).length = (inOrder ys).length := by
    rw [(hperm xs).length_eq, (hperm ys).length_eq, hlength]
  have hkeys : (inOrder xs).map Prod.fst = (inOrder ys).map Prod.fst :=
    map_eq_map_of_zip hlen fun p hp => (h p hp).1
  refine .dict hx (((hperm xs).map _).symm.trans (hkeys ▸ (hperm ys).map _)) fun k v w hv hw => ?_
  -- the entry in the place of `(k, v)` has the key `k`, and there is one such entry only
  have hmem : (k, v) ∈ ((inOrder xs).zip (inOrder ys)).map Prod.fst := by
    rw [List.map_fst_zip hlen.le]
    exact (hperm xs).mem_iff.2 hv
  obtain ⟨⟨e, e'⟩, hp, rfl⟩ := List.mem_map.1 hmem
  obtain ⟨hk, hsame⟩ := h _ hp
  have he' : e' ∈ ys := (hperm ys).mem_iff.1 (List.of_mem_zip hp).2
  obtain rfl := List.inj_on_of_nodup_map hy.nodup_keys he' hw hk.symm
  exact hsame

/-- The pieces tell where a value ends and, up to the order of entries, which value it is. -/
theorem same_of_pieces {x y : List (List UInt8)} (hv : Plain m v) (hw : Plain n w)
    (h : pieces v ++ x = pieces w ++ y) : Same v w ∧ x = y := by
  -- The first piece tells the sort of a value, so the other value has the same constructor.
  induction hv generalizing n w x y with
  | none =>
    have hsort := (Plain.none 0).sortName_eq hw h
    cases hw <;> simp [sortName] at hsort
    exact ⟨.refl _, (List.cons.inj h).2⟩
  | bool m b =>
    have hsort := (Plain.bool 0 b).sortName_eq hw h
    cases hw <;> simp [sortName] at hsort
    obtain ⟨hhead, hrest⟩ := List.cons.inj h
    rename_i c
    have hb : (if b then "True" else "False") = if c then "True" else "False" := ascii_injective hhead
    obtain rfl : b = c := by cases b <;> cases c <;> simp at hb ⊢
    exact ⟨.refl _, hrest⟩
  | int m z =>
    have hsort := (Plain.int 0 z).sortName_eq hw h
    cases hw <;> simp [sortName] at hsort
    obtain ⟨hhead, hrest⟩ := List.cons.inj h
    rw [intText_injective (ascii_injective hhead)]
    exact ⟨.refl _, hrest⟩
  | text m s =>
    have hsort := (Plain.text 0 s).sortName_eq hw h
    cases hw <;> simp [sortName] at hsort
    obtain ⟨hhead, hrest⟩ := List.cons.inj h
    rw [ascii_injective (List.append_cancel_left hhead)]
    exact ⟨.refl _, hrest⟩
  | list hlength hitems ih =>
    have hsort := (Plain.list hlength hitems).sortName_eq hw h
    cases hw <;> simp [sortName] at hsort
    rename_i hlength' hitems'
    rw [pieces, pieces, itemPieces_eq, itemPieces_eq] at h
    obtain ⟨hhead, hrest⟩ := List.cons.inj h
    have hcount := count_injective hhead
    obtain ⟨hsame, hxy⟩ := zip_of_flatMap_append_eq hcount
      (fun v hv w hw _ _ => ih v hv (hitems' w hw)) hrest
    exact ⟨.list hcount hsame, hxy⟩
  | @dict _ xs hdigests hvalues ih =>
    have hsort := (Plain.dict hdigests hvalues).sortName_eq hw h
    cases hw <;> simp [sortName] at hsort
    rename_i ys hdigests' hvalues'
    rw [pieces_dict, pieces_dict] at h
    obtain ⟨hhead, hrest⟩ := List.cons.inj h
    have hcount := count_injective hhead
    have hread : ∀ a ∈ inOrder xs, ∀ b ∈ inOrder ys, ∀ x y,
        (nameStream 0 a.1 :: pieces a.2) ++ x = (nameStream 0 b.1 :: pieces b.2) ++ y →
        (a.1 = b.1 ∧ Same a.2 b.2) ∧ x = y := by
      intro a ha b hb x y h
      obtain ⟨hkey, hvalue⟩ := List.cons.inj h
      obtain ⟨hsame, hxy⟩ := ih a (List.mem_mergeSort.1 ha) (hvalues' b (List.mem_mergeSort.1 hb)) hvalue
      exact ⟨⟨ascii_injective (List.append_cancel_left hkey), hsame⟩, hxy⟩
    obtain ⟨hsame, hxy⟩ := zip_of_flatMap_append_eq (by simpa [inOrder] using hcount) hread hrest
    exact ⟨same_dict hdigests hdigests' hcount hsame, hxy⟩

/-! ## Values with one stream -/

theorem eq_or_exists_ne {α : Type} (x y : List α) :
    x <+: y ∨ y <+: x ∨ ∃ before a b x' y', x = before ++ a :: x' ∧ y = before ++ b :: y' ∧ a ≠ b := by
  induction x generalizing y with
  | nil => exact .inl List.nil_prefix
  | cons a x ih =>
    cases y with
    | nil => exact .inr (.inl List.nil_prefix)
    | cons b y =>
      by_cases hab : a = b
      · subst hab
        rcases ih y with h | h | ⟨before, c, d, x', y', rfl, rfl, hne⟩
        · exact .inl (List.cons_prefix_cons.2 ⟨rfl, h⟩)
        · exact .inr (.inl (List.cons_prefix_cons.2 ⟨rfl, h⟩))
        · exact .inr (.inr ⟨a :: before, c, d, x', y', rfl, rfl, hne⟩)
      · exact .inr (.inr ⟨[], a, b, x, y, rfl, rfl, hab⟩)

/-- Where two rows of pieces differ first, the one piece is the beginning of the other, which goes on
with what follows the first one. -/
def RunTogether (x y : List (List UInt8)) : Prop :=
  ∃ before a b x' y', x = before ++ a :: x' ∧ y = before ++ b :: y' ∧ a ≠ b ∧
    (a <+: b ∨ b <+: a) ∧ a ++ x'.flatten = b ++ y'.flatten

/-- Two values have one stream just if they are the same or their pieces run together. -/
theorem stream_eq_iff (hv : Plain maxDepth v) (hw : Plain maxDepth w) :
    stream 0 v = stream 0 w ↔ Same v w ∨ RunTogether (pieces v) (pieces w) := by
  constructor
  · intro h
    rw [hv.stream_eq 0 (by decide), hw.stream_eq 0 (by decide)] at h
    rcases eq_or_exists_ne (pieces v) (pieces w) with ⟨z, hz⟩ | ⟨z, hz⟩ | ⟨before, a, b, x, y, hx, hy, hne⟩
    · exact .inl (same_of_pieces hv hw (by rw [hz, List.append_nil])).1
    · exact .inl (same_of_pieces hv hw (by rw [hz, List.append_nil])).1
    · rw [hx, hy, List.flatten_append, List.flatten_append] at h
      have hrest : a ++ x.flatten = b ++ y.flatten := List.append_cancel_left h
      refine .inr ⟨before, a, b, x, y, hx, hy, hne, ?_, hrest⟩
      exact List.prefix_or_prefix_of_prefix (hrest ▸ List.prefix_append a _) (List.prefix_append b _)
  · rintro (h | ⟨before, a, b, x, y, hx, hy, -, -, hrest⟩)
    · exact h.stream_eq 0
    · rw [hv.stream_eq 0 (by decide), hw.stream_eq 0 (by decide), hx, hy, List.flatten_append,
        List.flatten_append, List.flatten_cons, List.flatten_cons, hrest]

/-- The order of entries is no difference, but a number that runs into the next one hides a difference. -/
theorem stream_eq_iff_nested :
    let v := Value.dict (texts [("a", .list [.int 1, .int 12]), ("b", .none)])
    let w := Value.dict (texts [("b", .none), ("a", .list [.int 11, .int 2])])
    Plain maxDepth v ∧ Plain maxDepth w ∧
      (stream 0 v = stream 0 w ↔ Same v w ∨ RunTogether (pieces v) (pieces w)) := by
  intro v w
  have hlist (a b : Int) : Plain 7 (.list [.int a, .int b]) :=
    .list (by simp [maxItems]) (by simp [Plain.int])
  have hv : Plain maxDepth v := .dict (by decide +kernel) (by simp [hlist, Plain.none])
  have hw : Plain maxDepth w := .dict (by decide +kernel) (by simp [hlist, Plain.none])
  exact ⟨hv, hw, stream_eq_iff hv hw⟩

/-- Two lists of numbers that are told apart by nothing in their streams. -/
theorem lists_share_stream :
    let v := Value.list [.int 1, .int 12]
    let w := Value.list [.int 11, .int 2]
    Plain maxDepth v ∧ Plain maxDepth w ∧ ¬Same v w ∧ stream 0 v = stream 0 w ∧
      fingerprint v = fingerprint w := by
  intro v w
  have hlist (a b : Int) : Plain maxDepth (.list [.int a, .int b]) :=
    .list (by simp [maxItems]) (by simp [Plain.int])
  have hstream : stream 0 v = stream 0 w := by decide +kernel
  refine ⟨hlist 1 12, hlist 11 2, ?_, hstream, congrArg digestText hstream⟩
  show ¬Same (.list [.int 1, .int 12]) (.list [.int 11, .int 2])
  intro h
  cases h with
  | list _ hitems => cases hitems (.int 1, .int 11) (by simp)

end McdocSchema.Value
