import OxlensSfu.Forward.Packet
import Mathlib.Data.List.Nodup

/-!
# Numbers of header extensions

The server writes four header extensions to a subscriber, under the numbers of the subscriber's
table (`seed`, `ext_table` and `server_extmap`, `crates/oxsfud/src/sub/mod.rs`). The client maps
numbers to URIs; for a URI that it leaves out, the server takes its own number.

**Theorem (`seeded_ids_clear_iff`).** The four numbers differ, and the client means by none of them
another URI, exactly when the client has no other use for the numbers the server falls back on.
Every element that is written is also read under its URI exactly when the client names all four, or,
if it takes the server's numbers for those it leaves out, exactly when it has no other use for them.

The numbers of the client differ from each other, so only a fallback can collide.
-/

namespace OxlensSfu.Sub

open OxlensSfu.Rtcp (be16 be32 of16)
open OxlensSfu.Fwd (ExtInput part elements build extGet ids valueOf)

/-- What the server writes, with the number of each in its own map. -/
def written : List (String × Nat) :=
  [(uriMid, 1), (uriAudioLevel, 4), (uriAbsSendTime, 5), (uriTwcc, 6)]

/-- The number the client has for a URI. -/
def clientId (m : List ExtMap) (uri : String) : Option Nat := (m.find? (·.uri = uri)).map (·.id)

/-- The number the server writes an extension under. -/
def mergedId (m : List ExtMap) (d : String × Nat) : Nat := (clientId m d.1).getD d.2

/-- The URIs of a table, with their numbers. -/
def ExtTable.entries (t : ExtTable) : List (String × Option Nat) :=
  [(uriMid, t.mid), (uriAudioLevel, t.audioLevel), (uriAbsSendTime, t.absSendTime),
    (uriTwcc, t.twcc)]

/-- No two extensions have one number, and the client takes no number for another URI. -/
structure ExtTable.Clear (t : ExtTable) (m : List ExtMap) : Prop where
  distinct : ∀ x ∈ t.entries, ∀ y ∈ t.entries, ∀ i, x.2 = some i → y.2 = some i → x.1 = y.1
  meant : ∀ x ∈ t.entries, ∀ e ∈ m, x.2 = some e.id → e.uri = x.1

/-- The client uses no number that the server falls back on. -/
def FallbacksFree (m : List ExtMap) : Prop :=
  ∀ d ∈ written, (∀ e ∈ m, e.uri ≠ d.1) → ∀ e ∈ m, e.id ≠ d.2

/-- The client names everything that is written. -/
def NamesAll (m : List ExtMap) : Prop := ∀ d ∈ written, ∃ e ∈ m, e.uri = d.1

/-! ## What is written and read -/

/-- The elements of a packet, with the URI each is written for. -/
def ExtTable.writes (t : ExtTable) (inp : ExtInput) : List (String × Nat × List UInt8) :=
  (part t.mid (some inp.mid)).map (uriMid, ·) ++
    (part t.audioLevel (inp.audioLevel.map ([·]))).map (uriAudioLevel, ·) ++
    (part t.absSendTime (some ((be32 (Fwd.absSendTime inp.tUs)).drop 1))).map (uriAbsSendTime, ·) ++
    (part t.twcc (inp.twccSeq.map (be16 ·.toNat))).map (uriTwcc, ·)

theorem writes_elements (t : ExtTable) (inp : ExtInput) :
    (t.writes inp).map (·.2) = elements t inp := by
  simp only [ExtTable.writes, elements, List.map_append, List.map_map, Function.comp_def,
    List.map_id']

/-- The extensions of a packet, as they are parsed. -/
def regionOf : List UInt8 → Option (UInt16 × List UInt8)
  | p1 :: p2 :: _ :: _ :: d => some (.ofNat (of16 p1 p2), d)
  | _ => none

/-- What a client finds for a URI in the extensions of a packet. -/
def clientRead (m : List ExtMap) (region : Option (UInt16 × List UInt8)) (uri : String) :
    Option (List UInt8) :=
  (clientId m uri).bind fun i => extGet region (.ofNat i)

/-- Every element that `build` writes (an empty value is none) is read under its URI; the mid of a
row is a short number. -/
def ExtTable.ReadBy (t : ExtTable) (m : List ExtMap) : Prop :=
  ∀ inp : ExtInput, inp.mid.length ≤ 16 → ∀ x ∈ t.writes inp, x.2.2 ≠ [] →
    clientRead m (regionOf (build t inp)) x.1 = some x.2.2

/-- The numbers of a client that takes the server's for the URIs it leaves out (`9-4-19` of the
protocol). Where it has another use for the number it takes one that is in neither map, under which
nothing is written. -/
def completed (m : List ExtMap) : List ExtMap :=
  m ++ serverExtmap.filter fun d => m.all fun e => e.uri ≠ d.uri ∧ e.id ≠ d.id

/-! ## The stored table -/

theorem entries_server : (extTable serverExtmap).entries =
    written.map fun d => (d.1, some (mergedId [] d)) := by
  decide

theorem entries_merged (m : List ExtMap) : (extTable (Table.mergeExtmap m)).entries =
    written.map fun d => (d.1, some (mergedId m d)) := by
  simp [-Option.getD_map, ExtTable.entries, extTable, Table.mergeExtmap, serverExtmap, written,
    mergedId, clientId, uriMid, uriAudioLevel, uriAbsSendTime, uriTwcc]

namespace Table

variable {t t' : Table}

theorem ext_sync {cands : List Cand} {now : Nat} {draws : List (BitVec 32)} {out : SyncOut}
    (h : t.sync cands now draws = some (out, t')) : t'.ext = t.ext := by
  rw [sync] at h
  dsimp only at h
  split_ifs at h with hpre hbudget
  · obtain ⟨-, rfl⟩ := Prod.mk.inj (Option.some.inj h)
    rfl
  · obtain ⟨-, rfl⟩ := Prod.mk.inj (Option.some.inj h)
    rfl
  · obtain ⟨⟨w, b⟩, -, h⟩ := Option.bind_eq_some_iff.mp h
    cases b with
    | some b =>
      obtain ⟨-, rfl⟩ := Prod.mk.inj (Option.some.inj h)
      rfl
    | none =>
      obtain ⟨w₁, -, h⟩ := Option.bind_eq_some_iff.mp h
      obtain ⟨w₂, -, h⟩ := Option.bind_eq_some_iff.mp h
      obtain ⟨-, rfl⟩ := Prod.mk.inj (Option.some.inj h)
      rfl

/-- Only a seed stores numbers. -/
theorem ext_apply (t : Table) {op : Op} (h : ∀ codecs m, op ≠ .seed codecs m) :
    (t.apply op).ext = t.ext := by
  cases op with
  | seed codecs m => exact absurd rfl (h codecs m)
  | sync cands now draws =>
    rw [apply]
    cases hsync : t.sync cands now draws with
    | none => rfl
    | some x => exact ext_sync hsync
  | carry arev =>
    rw [apply, carry]
    split <;> rfl
  | _ => rfl

theorem ext_run (t : Table) {ops : List Op} (h : ∀ op ∈ ops, ∀ codecs m, op ≠ .seed codecs m) :
    (ops.foldl apply t).ext = t.ext := by
  induction ops generalizing t with
  | nil => rfl
  | cons op ops ih =>
    obtain ⟨hop, hops⟩ := List.forall_mem_cons.mp h
    exact (ih _ hops).trans (t.ext_apply hop)

/-- What the first seed stores. -/
theorem entries_seed {codecs : List JoinCodec} {m : List ExtMap}
    (h : (t.seed codecs m).2 = some true) (hext : t.ext = extTable serverExtmap) :
    (t.seed codecs m).1.ext.entries = written.map fun d => (d.1, some (mergedId m d)) := by
  rw [seed] at h ⊢
  by_cases hs : t.st.seeded
  · rw [if_pos hs] at h
    exact absurd (Option.some.inj h) Bool.false_ne_true
  · rw [if_neg hs] at h ⊢
    generalize seedLoop { t.st with seeded := true } codecs = x at h ⊢
    obtain ⟨st, b⟩ := x
    cases b with
    | false => exact absurd h (by simp)
    | true =>
      cases m with
      | nil =>
        rw [← entries_server, ← hext]
        rfl
      | cons e m => exact entries_merged (e :: m)

end Table

/-! ## Collisions -/

theorem written_apart : ∀ d ∈ written, ∀ d' ∈ written, d.2 = d'.2 → d.1 = d'.1 := by
  decide

variable {m : List ExtMap}

theorem clientId_eq_some {uri : String} {i : Nat} (h : clientId m uri = some i) :
    ∃ e ∈ m, e.uri = uri ∧ e.id = i := by
  obtain ⟨e, he, rfl⟩ := Option.map_eq_some_iff.mp h
  have huri := List.find?_some he
  exact ⟨e, List.mem_of_find?_eq_some he, of_decide_eq_true huri, rfl⟩

theorem clientId_eq_none {uri : String} (h : clientId m uri = none) : ∀ e ∈ m, e.uri ≠ uri := by
  intro e he
  have := List.find?_eq_none.mp (Option.map_eq_none_iff.mp h) e he
  exact fun huri => this (decide_eq_true huri)

theorem clientId_of_left_out {uri : String} (h : ∀ e ∈ m, e.uri ≠ uri) :
    clientId m uri = none :=
  Option.map_eq_none_iff.mpr (List.find?_eq_none.mpr fun e he => by simpa using h e he)

/-- Of the two numbers of an extension, the client's or the fallback. -/
theorem mergedId_cases (m : List ExtMap) (d : String × Nat) :
    (∃ e ∈ m, e.uri = d.1 ∧ mergedId m d = e.id) ∨
      (∀ e ∈ m, e.uri ≠ d.1) ∧ mergedId m d = d.2 := by
  cases h : clientId m d.1 with
  | some i =>
    obtain ⟨e, he, huri, rfl⟩ := clientId_eq_some h
    exact .inl ⟨e, he, huri, by rw [mergedId, h]; rfl⟩
  | none => exact .inr ⟨clientId_eq_none h, by rw [mergedId, h]; rfl⟩

theorem uri_unique (hids : (m.map (·.id)).Nodup) {e e' : ExtMap} (he : e ∈ m) (he' : e' ∈ m)
    (h : e.id = e'.id) : e.uri = e'.uri := by
  rw [List.inj_on_of_nodup_map hids he he' h]

/-- The client means what the server writes, unless a fallback is taken. -/
theorem merged_meant (hids : (m.map (·.id)).Nodup) (hfree : FallbacksFree m) :
    ∀ d ∈ written, ∀ e ∈ m, mergedId m d = e.id → e.uri = d.1 := by
  intro d hd e he heq
  rcases mergedId_cases m d with ⟨x, hx, huri, hid⟩ | ⟨hout, hid⟩
  · exact (uri_unique hids he hx (heq.symm.trans hid)).trans huri
  · exact absurd (heq.symm.trans hid) (hfree d hd hout e he)

theorem merged_apart (hids : (m.map (·.id)).Nodup) (hfree : FallbacksFree m) :
    ∀ d ∈ written, ∀ d' ∈ written, mergedId m d = mergedId m d' → d.1 = d'.1 := by
  intro d hd d' hd' heq
  rcases mergedId_cases m d with ⟨x, hx, huri, hid⟩ | ⟨hout, hid⟩
  · exact huri.symm.trans (merged_meant hids hfree d' hd' x hx (heq.symm.trans hid))
  · rcases mergedId_cases m d' with ⟨x, hx, huri, hid'⟩ | ⟨hout', hid'⟩
    · exact ((huri.symm.trans (merged_meant hids hfree d hd x hx (heq.trans hid')))).symm
    · exact written_apart d hd d' hd' (hid.symm.trans (heq.trans hid'))

theorem clear_iff {t : ExtTable} (ht : t.entries = written.map fun d => (d.1, some (mergedId m d)))
    (hids : (m.map (·.id)).Nodup) : t.Clear m ↔ FallbacksFree m := by
  refine ⟨fun h d hd hout e he hid => ?_, fun h => ⟨?_, ?_⟩⟩
  · have hmerged : mergedId m d = d.2 := by
      rw [mergedId, clientId_of_left_out hout]
      rfl
    have hmem : (d.1, some (mergedId m d)) ∈ t.entries := by
      rw [ht]
      exact List.mem_map.mpr ⟨d, hd, rfl⟩
    exact hout e he (h.meant _ hmem e he (congrArg some (hmerged.trans hid.symm)))
  · rw [ht]
    intro x hx y hy i hxi hyi
    obtain ⟨d, hd, rfl⟩ := List.mem_map.mp hx
    obtain ⟨d', hd', rfl⟩ := List.mem_map.mp hy
    exact merged_apart hids h d hd d' hd' (Option.some.inj (hxi.trans hyi.symm))
  · rw [ht]
    intro x hx e he hxe
    obtain ⟨d, hd, rfl⟩ := List.mem_map.mp hx
    exact merged_meant hids h d hd e he (Option.some.inj hxe)

/-! ## Reading -/

theorem mem_labelled {uri : String} {o : Option Nat} {v : Option (List UInt8)}
    {x : String × Nat × List UInt8} :
    x ∈ (part o v).map (uri, ·) ↔ x.1 = uri ∧ o = some x.2.1 ∧ v = some x.2.2 := by
  rw [List.mem_map]
  constructor
  · rintro ⟨e, he, rfl⟩
    exact ⟨rfl, Fwd.mem_part.mp he⟩
  · intro h
    exact ⟨x.2, Fwd.mem_part.mpr h.2, Prod.ext h.1.symm rfl⟩

theorem mem_writes {t : ExtTable} {inp : ExtInput} {x : String × Nat × List UInt8} :
    x ∈ t.writes inp ↔
      x.1 = uriMid ∧ t.mid = some x.2.1 ∧ inp.mid = x.2.2 ∨
      x.1 = uriAudioLevel ∧ t.audioLevel = some x.2.1 ∧ inp.audioLevel.map ([·]) = some x.2.2 ∨
      x.1 = uriAbsSendTime ∧ t.absSendTime = some x.2.1 ∧
        (be32 (Fwd.absSendTime inp.tUs)).drop 1 = x.2.2 ∨
      x.1 = uriTwcc ∧ t.twcc = some x.2.1 ∧ inp.twccSeq.map (be16 ·.toNat) = some x.2.2 := by
  simp only [ExtTable.writes, List.mem_append, mem_labelled, or_assoc, Option.some.injEq]

/-- An element stands under a number of the table. -/
theorem entry_of_writes {t : ExtTable} {inp : ExtInput} {x : String × Nat × List UInt8}
    (hx : x ∈ t.writes inp) : (x.1, some x.2.1) ∈ t.entries := by
  rcases mem_writes.mp hx with ⟨hu, hn, -⟩ | ⟨hu, hn, -⟩ | ⟨hu, hn, -⟩ | ⟨hu, hn, -⟩ <;>
    simp [ExtTable.entries, hu, hn]

/-- Where the numbers differ, an element is what the table has under its number. -/
theorem valueOf_writes {t : ExtTable} (hids : (ids t).Nodup) {inp : ExtInput}
    {x : String × Nat × List UInt8} (hx : x ∈ t.writes inp) (hne : x.2.2 ≠ []) :
    valueOf t inp x.2.1 = some x.2.2 := by
  obtain ⟨hmid, hlevel, hsent⟩ := Fwd.ids_apart hids x.2.1
  rcases mem_writes.mp hx with ⟨-, hn, hv⟩ | ⟨-, hn, hv⟩ | ⟨-, hn, hv⟩ | ⟨-, hn, hv⟩
  · rw [valueOf, if_pos hn, if_neg (hv ▸ hne), hv]
  · rw [valueOf, if_neg fun h => (hmid h).1 hn, if_pos hn, hv]
  · rw [valueOf, if_neg fun h => (hmid h).2.1 hn, if_neg fun h => (hlevel h).1 hn, if_pos hn, hv]
  · rw [valueOf, if_neg fun h => (hmid h).2.2 hn, if_neg fun h => (hlevel h).2 hn,
      if_neg fun h => hsent h hn, if_pos hn, hv]

theorem ids_eq (t : ExtTable) : ids t = t.entries.filterMap (·.2) := by
  rw [ids, List.reduceOption, ExtTable.entries]
  rfl

theorem written_nodup : written.Nodup := by decide

theorem written_uri : ∀ d ∈ written, ∀ d' ∈ written, d.1 = d'.1 → d = d' := by decide

theorem written_range : ∀ d ∈ written, 1 ≤ d.2 ∧ d.2 ≤ 255 := by decide

section Reading

variable {t : ExtTable} (ht : t.entries = written.map fun d => (d.1, some (mergedId m d)))
include ht

theorem ids_merged : ids t = written.map (mergedId m) := by
  rw [ids_eq, ht, List.filterMap_map]
  exact congrFun List.filterMap_eq_map written

theorem ids_nodup (h : t.Clear m) : (ids t).Nodup := by
  rw [ids_merged ht]
  refine List.Nodup.map_on (fun d hd d' hd' heq => ?_) written_nodup
  refine written_uri d hd d' hd' ?_
  refine h.distinct (d.1, some (mergedId m d)) ?_ (d'.1, some (mergedId m d')) ?_ _ rfl
    (congrArg some heq.symm)
  · rw [ht]
    exact List.mem_map.mpr ⟨d, hd, rfl⟩
  · rw [ht]
    exact List.mem_map.mpr ⟨d', hd', rfl⟩

theorem ids_range (hrange : ∀ e ∈ m, 1 ≤ e.id ∧ e.id ≤ 255) :
    ∀ n ∈ ids t, 1 ≤ n ∧ n ≤ 255 := by
  rw [ids_merged ht]
  intro n hn
  obtain ⟨d, hd, rfl⟩ := List.mem_map.mp hn
  rcases mergedId_cases m d with ⟨e, he, -, hid⟩ | ⟨-, hid⟩
  · rw [hid]
    exact hrange e he
  · rw [hid]
    exact written_range d hd

/-- A client reads what is written, when it has the numbers of the table. -/
theorem readBy_of_numbers {M : List ExtMap} (hclear : t.Clear m)
    (hrange : ∀ e ∈ m, 1 ≤ e.id ∧ e.id ≤ 255)
    (hM : ∀ d ∈ written, clientId M d.1 = some (mergedId m d)) : t.ReadBy M := by
  intro inp hmid x hx hne
  have hids := ids_nodup ht hclear
  have hin := ids_range ht hrange
  have hentry := entry_of_writes hx
  rw [ht] at hentry
  obtain ⟨d, hd, hdx⟩ := List.mem_map.mp hentry
  obtain ⟨huri, hnum⟩ := Prod.mk.inj hdx
  have hnum : mergedId m d = x.2.1 := Option.some.inj hnum
  have hmem : x.2.1 ∈ ids t := by
    rw [ids_merged ht, ← hnum]
    exact List.mem_map_of_mem hd
  obtain ⟨hlo, hhi⟩ := hin _ hmem
  have hbyte : (UInt8.ofNat x.2.1).toNat = x.2.1 := UInt8.toNat_ofNat_of_lt' (by
    show x.2.1 < 256
    omega)
  have hzero : UInt8.ofNat x.2.1 ≠ 0 := fun h => by
    rw [h] at hbyte
    exact absurd hbyte.symm (by
      show x.2.1 ≠ 0
      omega)
  have hvalue := valueOf_writes hids hx hne
  rw [clientRead, ← huri, hM d hd, Option.bind_some, hnum]
  rcases Fwd.build_spec hids hin hmid with ⟨-, hnone⟩ | ⟨p1, p2, b, hb, -, -, hget⟩
  · have h := hnone (.ofNat x.2.1)
    rw [hbyte, hvalue] at h
    exact absurd h (Option.some_ne_none _)
  · rw [hb]
    show extGet (some (.ofNat (of16 p1 p2), b)) _ = _
    rw [hget _ hzero, hbyte, hvalue]

/-- A packet of a row with everything in it. -/
def fullInput : ExtInput := { mid := [51, 50], audioLevel := some 0, tUs := 0, twccSeq := some 0 }

theorem writes_full {d : String × Nat} (hd : d ∈ written) :
    ∃ x ∈ t.writes fullInput, x.1 = d.1 ∧ x.2.2 ≠ [] := by
  have hentry : (d.1, some (mergedId m d)) ∈ t.entries := by
    rw [ht]
    exact List.mem_map.mpr ⟨d, hd, rfl⟩
  simp only [ExtTable.entries, List.mem_cons, List.not_mem_nil, or_false, Prod.mk.injEq] at hentry
  rcases hentry with ⟨hu, hn⟩ | ⟨hu, hn⟩ | ⟨hu, hn⟩ | ⟨hu, hn⟩
  · exact ⟨(uriMid, mergedId m d, [51, 50]), mem_writes.mpr (.inl ⟨rfl, hn.symm, rfl⟩), hu.symm,
      List.cons_ne_nil _ _⟩
  · exact ⟨(uriAudioLevel, mergedId m d, [0]),
      mem_writes.mpr (.inr (.inl ⟨rfl, hn.symm, rfl⟩)), hu.symm, List.cons_ne_nil _ _⟩
  · exact ⟨(uriAbsSendTime, mergedId m d, (be32 (Fwd.absSendTime 0)).drop 1),
      mem_writes.mpr (.inr (.inr (.inl ⟨rfl, hn.symm, rfl⟩))), hu.symm, Fwd.time_ne_nil _⟩
  · exact ⟨(uriTwcc, mergedId m d, be16 0),
      mem_writes.mpr (.inr (.inr (.inr ⟨rfl, hn.symm, rfl⟩))), hu.symm, Fwd.be16_ne_nil _⟩

/-- What is read was named. -/
theorem namesAll_of_readBy (h : t.ReadBy m) : NamesAll m := by
  intro d hd
  obtain ⟨x, hx, huri, hne⟩ := writes_full ht hd
  have hread := h fullInput (by decide) x hx hne
  obtain ⟨i, hi, -⟩ := Option.bind_eq_some_iff.mp hread
  obtain ⟨e, he, heuri, -⟩ := clientId_eq_some hi
  exact ⟨e, he, heuri.trans huri⟩

end Reading

theorem NamesAll.fallbacksFree (h : NamesAll m) : FallbacksFree m := by
  intro d hd hout
  obtain ⟨e, he, huri⟩ := h d hd
  exact absurd huri (hout e he)

/-- The client that names everything has the numbers of the table. -/
theorem NamesAll.numbers (h : NamesAll m) :
    ∀ d ∈ written, clientId m d.1 = some (mergedId m d) := by
  intro d hd
  obtain ⟨e, he, huri⟩ := h d hd
  cases hi : clientId m d.1 with
  | none => exact absurd huri (clientId_eq_none hi e he)
  | some i => rw [mergedId, hi, Option.getD_some]

theorem server_number : ∀ d ∈ written, ∀ e ∈ serverExtmap, e.uri = d.1 → e.id = d.2 := by
  decide

theorem server_has : ∀ d ∈ written, ⟨d.2, d.1⟩ ∈ serverExtmap := by
  decide

/-- So does one that takes the server's numbers, when it can. -/
theorem FallbacksFree.numbers (h : FallbacksFree m) :
    ∀ d ∈ written, clientId (completed m) d.1 = some (mergedId m d) := by
  intro d hd
  rcases mergedId_cases m d with ⟨e, he, huri, -⟩ | ⟨hout, hid⟩
  · cases hi : clientId m d.1 with
    | none => exact absurd huri (clientId_eq_none hi e he)
    | some i =>
      obtain ⟨x, hx, rfl⟩ := Option.map_eq_some_iff.mp hi
      rw [clientId, completed, List.find?_append, hx, mergedId, hi]
      rfl
  · have hnone : m.find? (·.uri = d.1) = none :=
      List.find?_eq_none.mpr fun e he => by simpa using hout e he
    have hkept : (⟨d.2, d.1⟩ : ExtMap) ∈ serverExtmap.filter fun d =>
        m.all fun e => e.uri ≠ d.uri ∧ e.id ≠ d.id := by
      refine List.mem_filter.mpr ⟨server_has d hd, List.all_eq_true.mpr fun e he => ?_⟩
      exact decide_eq_true ⟨hout e he, h d hd hout e he⟩
    rw [clientId, completed, List.find?_append, hnone, Option.none_or, hid]
    obtain ⟨y, hy⟩ := Option.isSome_iff_exists.mp ((List.find?_isSome
      (p := fun e : ExtMap => decide (e.uri = d.1))).mpr ⟨_, hkept, by simp⟩)
    have hyd := List.find?_some hy
    have hyuri : y.uri = d.1 := of_decide_eq_true hyd
    have hymem := (List.mem_filter.mp (List.mem_of_find?_eq_some hy)).1
    rw [hy, Option.map_some, server_number d hd y hymem hyuri]

/-- **When the numbers are clear, and when everything that is written is read.** -/
theorem seeded_ids_clear_iff (pcMode : PcMode) (slotBudget : Nat) {ops : List Op}
    (hops : ∀ op ∈ ops, ∀ codecs m, op ≠ .seed codecs m) (codecs : List JoinCodec)
    (hids : (m.map (·.id)).Nodup) (hrange : ∀ e ∈ m, 1 ≤ e.id ∧ e.id ≤ 255)
    (hseed : ((ops.foldl Table.apply (Table.new pcMode slotBudget)).seed codecs m).2 =
      some true) :
    let t := ((ops.foldl Table.apply (Table.new pcMode slotBudget)).seed codecs m).1.ext
    (t.Clear m ↔ FallbacksFree m) ∧
      (t.Clear m ∧ t.ReadBy m ↔ NamesAll m) ∧
      (t.Clear m ∧ t.ReadBy (completed m) ↔ FallbacksFree m) ∧
      ∀ inp, (t.writes inp).map (·.2) = elements t inp := by
  intro t
  have ht : t.entries = written.map fun d => (d.1, some (mergedId m d)) :=
    Table.entries_seed hseed (Table.ext_run _ hops)
  have hclear := clear_iff ht hids
  refine ⟨hclear, ⟨fun h => namesAll_of_readBy ht h.2, fun h => ?_⟩,
    ⟨fun h => hclear.mp h.1, fun h => ?_⟩, writes_elements t⟩
  · have hc := hclear.mpr h.fallbacksFree
    exact ⟨hc, readBy_of_numbers ht hc hrange h.numbers⟩
  · have hc := hclear.mpr h
    exact ⟨hc, readBy_of_numbers ht hc hrange h.numbers⟩

/-- A client that names mid and level only. -/
theorem seeded_ids_clear_iff_two :
    let m : List ExtMap := [⟨4, uriMid⟩, ⟨3, uriAudioLevel⟩]
    let t := ((Table.new .one 0).seed [] m).1.ext
    (t.Clear m ↔ FallbacksFree m) ∧ (t.Clear m ∧ t.ReadBy m ↔ NamesAll m) ∧
      (t.Clear m ∧ t.ReadBy (completed m) ↔ FallbacksFree m) ∧
      ∀ inp, (t.writes inp).map (·.2) = elements t inp :=
  seeded_ids_clear_iff .one 0 (List.forall_mem_nil _) [] (by decide) (by decide) rfl

/-- A client that takes 4 for the mid and does not name the level gets both under 4. -/
theorem seeded_ids_collide :
    ¬ ∀ m : List ExtMap, (m.map (·.id)).Nodup → (m.map (·.uri)).Nodup →
      (∀ e ∈ m, 1 ≤ e.id ∧ e.id ≤ 255) →
      ((Table.new .one 0).seed [] m).1.ext.Clear m ∧
        ((Table.new .one 0).seed [] m).1.ext.ReadBy m := by
  intro h
  have hclear := (h [⟨4, uriMid⟩] (by decide) (by decide) (by decide)).1
  exact absurd (hclear.distinct (uriMid, some 4) (by decide) (uriAudioLevel, some 4) (by decide) 4
    rfl rfl) (by decide)

end OxlensSfu.Sub
