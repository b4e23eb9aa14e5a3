import OxlensSfu.Rtcp.Feedback
import Mathlib.Data.List.Sort
import Mathlib.Data.List.Nodup

/-!
# Requests in bytes

The numbers of the packets that are asked for again become one packet (`build_nack`, `split` and
`parse_nack`, `crates/oxsfud/src/rtcp/mod.rs`). They are sorted, and a number takes those up to 16
behind it along in a mask, one bit for each distance.

**Theorem (`nack_sent_and_read`).** Of numbers that are all different, what is sent is one packet,
and it is read back as the stream and the same numbers, ascending.

The argument is about one group (`numbers_groups`): while the mask has no bit from `e` on, and the
numbers to come are more than `e` behind the first one, a new bit is a new number at the end
(`numbers_or`). A group ends where the distance is over 16, so the next one begins 17 numbers
behind it at least, and the length of the packet fits its 16 bits.
-/

namespace OxlensSfu.Rtcp

/-- A number, and the mask of those behind it. -/
abbrev Fci : Type := UInt16 × Nat

/-- The group of `pid` so far is `blp`, and these numbers follow. -/
def groups (pid : UInt16) (blp : Nat) : List UInt16 → List Fci
  | [] => [(pid, blp)]
  | s :: seqs =>
    let d := (s - pid).toNat
    if 1 ≤ d ∧ d ≤ 16 then groups pid (blp ||| 1 <<< (d - 1)) seqs
    else (pid, blp) :: groups s 0 seqs

def groupsOf : List UInt16 → List Fci
  | [] => []
  | s :: seqs => groups s 0 seqs

def fciBytes (x : Fci) : List UInt8 := be16 x.1.toNat ++ be16 x.2

def buildNack (media : UInt32) (seqs : List UInt16) : List UInt8 :=
  let fci := groupsOf (seqs.mergeSort (· ≤ ·))
  header 1 205 (2 + fci.length) ++ (be32 senderSsrc ++ be32 media.toNat ++ fci.flatMap fciBytes)

/-- The numbers of a group. -/
def numbers (x : Fci) : List UInt16 :=
  x.1 :: ((List.range 16).filter fun k => x.2 &&& 1 <<< k ≠ 0).map fun k => x.1 + .ofNat (k + 1)

def readFci : List UInt8 → List UInt16
  | a :: b :: c :: d :: rest => numbers (.ofNat (of16 a b), of16 c d) ++ readFci rest
  | _ => []

def parseNack (body : List UInt8) : Option (UInt32 × List UInt16) := do
  let media ← get32 body 4
  some (.ofNat media, readFci (body.drop 8))

/-! ## Masks -/

/-- The places of the bits of a mask. -/
def bits (m : Nat) : List Nat := (List.range 16).filter (m.testBit ·)

theorem numbers_eq (x : Fci) : numbers x = x.1 :: (bits x.2).map fun k => x.1 + .ofNat (k + 1) := by
  have hbits : (List.range 16).filter (fun k => x.2 &&& 1 <<< k ≠ 0) = bits x.2 :=
    List.filter_congr fun k _ => by
      simp only [Nat.one_shiftLeft, ne_eq, and_bit_eq_zero, Bool.not_eq_false, Bool.decide_eq_true]
  rw [numbers, hbits]

/-- The bits of a mask that ends before `e`. -/
theorem bits_of_lt {m e : Nat} (he : e ≤ 16) (hm : m < 2 ^ e) :
    bits m = (List.range e).filter (m.testBit ·) := by
  obtain ⟨c, hc⟩ := Nat.exists_eq_add_of_le he
  have hrest : ((List.range c).map (e + ·)).filter (m.testBit ·) = [] := by
    rw [List.filter_eq_nil_iff]
    intro k hk
    obtain ⟨j, -, rfl⟩ := List.mem_map.mp hk
    have hle : 2 ^ e ≤ 2 ^ (e + j) := Nat.pow_le_pow_right (by omega) (Nat.le_add_right e j)
    simp [Nat.testBit_lt_two_pow (Nat.lt_of_lt_of_le hm hle)]
  rw [bits, hc, List.range_add, List.filter_append, hrest, List.append_nil]

/-- A bit behind all others comes last. -/
theorem bits_or {m e : Nat} (he : e < 16) (hm : m < 2 ^ e) : bits (m ||| 2 ^ e) = bits m ++ [e] := by
  have hlt : m ||| 2 ^ e < 2 ^ (e + 1) :=
    Nat.or_lt_two_pow (by rw [Nat.pow_succ]; omega) (Nat.pow_lt_pow_right (by omega) (by omega))
  have hlow : (List.range e).filter ((m ||| 2 ^ e).testBit ·) =
      (List.range e).filter (m.testBit ·) :=
    List.filter_congr fun k hk => by
      have hne : ¬ e = k := (List.mem_range.mp hk).ne'
      rw [Nat.testBit_or, Nat.testBit_two_pow_of_ne hne, Bool.or_false]
  have hlast : (m ||| 2 ^ e).testBit e = true := by
    rw [Nat.testBit_or, Nat.testBit_two_pow_self, Bool.or_true]
  rw [bits_of_lt he hlt, bits_of_lt he.le hm, List.range_succ, List.filter_append, hlow,
    List.filter_singleton, hlast]
  rfl

theorem bits_mod (m : Nat) : bits (m % 2 ^ 16) = bits m :=
  List.filter_congr fun k hk => by
    rw [Nat.testBit_mod_two_pow, decide_eq_true (List.mem_range.mp hk), Bool.true_and]

/-- A new bit behind all others is a new number at the end. -/
theorem numbers_or {pid : UInt16} {m e : Nat} (he : e < 16) (hm : m < 2 ^ e) :
    numbers (pid, m ||| 2 ^ e) = numbers (pid, m) ++ [pid + .ofNat (e + 1)] := by
  rw [numbers_eq, numbers_eq, bits_or he hm, List.map_append, List.cons_append]
  rfl

theorem numbers_zero (pid : UInt16) : numbers (pid, 0) = [pid] := by
  rw [numbers_eq, show bits 0 = [] by decide, List.map_nil]

/-! ## Groups -/

/-- The distance from a number to a later one. -/
theorem toNat_sub_of_lt {pid s : UInt16} (h : pid.toNat < s.toNat) :
    (s - pid).toNat = s.toNat - pid.toNat := by
  rw [UInt16.toNat_sub_of_le]
  exact UInt16.le_iff_toNat_le.mpr h.le

theorem add_distance {pid s : UInt16} (h : pid.toNat < s.toNat) :
    pid + .ofNat ((s - pid).toNat - 1 + 1) = s := by
  have hd := toNat_sub_of_lt h
  rw [Nat.sub_add_cancel (by omega), UInt16.ofNat_toNat, UInt16.add_comm,
    UInt16.sub_add_cancel]

/-- **The groups hold the numbers they were made of.** Of the group in progress, all that is known
is where its bits end. -/
theorem numbers_groups {seqs : List UInt16} (hs : seqs.Pairwise (·.toNat < ·.toNat)) :
    ∀ {pid : UInt16} {m e : Nat}, e ≤ 16 → m < 2 ^ e → (∀ s ∈ seqs, pid.toNat + e < s.toNat) →
      (groups pid m seqs).flatMap numbers = numbers (pid, m) ++ seqs := by
  induction seqs with
  | nil =>
    intro pid m e _ _ _
    rw [groups, List.flatMap_singleton, List.append_nil]
  | cons s seqs ih =>
    intro pid m e he hm hlt
    obtain ⟨hafter, hs⟩ := List.pairwise_cons.mp hs
    have hfirst := hlt s List.mem_cons_self
    have hd := toNat_sub_of_lt (show pid.toNat < s.toNat by omega)
    rw [groups]
    split
    · next hnear =>
      have hbit : m < 2 ^ ((s - pid).toNat - 1) :=
        Nat.lt_of_lt_of_le hm (Nat.pow_le_pow_right (by omega) (by omega))
      have hmask : m ||| 2 ^ ((s - pid).toNat - 1) < 2 ^ (s - pid).toNat :=
        Nat.or_lt_two_pow (Nat.lt_of_lt_of_le hm (Nat.pow_le_pow_right (by omega) (by omega)))
          (Nat.pow_lt_pow_right (by omega) (by omega))
      have hrest : ∀ x ∈ seqs, pid.toNat + (s - pid).toNat < x.toNat := fun x hx => by
        have := hafter x hx
        omega
      rw [Nat.one_shiftLeft, ih hs hnear.2 hmask hrest, numbers_or (by omega) hbit,
        add_distance (by omega), List.append_assoc]
      rfl
    · rw [List.flatMap_cons, ih hs (Nat.zero_le 16) Nat.one_pos hafter, numbers_zero]
      rfl

theorem numbers_groupsOf {seqs : List UInt16} (hs : seqs.Pairwise (·.toNat < ·.toNat)) :
    (groupsOf seqs).flatMap numbers = seqs := by
  cases seqs with
  | nil => rfl
  | cons s seqs =>
    obtain ⟨hafter, hs⟩ := List.pairwise_cons.mp hs
    rw [groupsOf, numbers_groups hs (Nat.zero_le 16) Nat.one_pos hafter, numbers_zero]
    rfl

/-- A group begins 17 numbers or more behind the one before it. -/
theorem length_groups {seqs : List UInt16} (hs : seqs.Pairwise (·.toNat < ·.toNat)) :
    ∀ {pid : UInt16} {m : Nat}, (∀ s ∈ seqs, pid.toNat < s.toNat) →
      17 * (groups pid m seqs).length + pid.toNat ≤ 17 + 0xffff := by
  induction seqs with
  | nil =>
    intro pid m _
    have := pid.toNat_lt
    rw [groups, List.length_singleton]
    omega
  | cons s seqs ih =>
    intro pid m hlt
    obtain ⟨hafter, hs⟩ := List.pairwise_cons.mp hs
    have hfirst := hlt s List.mem_cons_self
    have hd := toNat_sub_of_lt hfirst
    rw [groups]
    split
    · exact ih hs fun x hx => hlt x (List.mem_cons_of_mem _ hx)
    · next hfar =>
      have := ih hs (m := 0) hafter
      rw [List.length_cons]
      omega

theorem length_groupsOf {seqs : List UInt16} (hs : seqs.Pairwise (·.toNat < ·.toNat)) :
    2 + (groupsOf seqs).length < 2 ^ 16 := by
  cases seqs with
  | nil => decide
  | cons s seqs =>
    obtain ⟨hafter, hs⟩ := List.pairwise_cons.mp hs
    have := length_groups hs (m := 0) hafter
    rw [groupsOf]
    omega

/-! ## The packet -/

theorem readFci_groups (l : List Fci) : readFci (l.flatMap fciBytes) = l.flatMap numbers := by
  induction l with
  | nil => rfl
  | cons x l ih =>
    have hpid : UInt16.ofNat (of16 (.ofNat (x.1.toNat / 256)) (.ofNat x.1.toNat)) = x.1 := by
      rw [of16_be16, Nat.mod_eq_of_lt x.1.toNat_lt, UInt16.ofNat_toNat]
    have hmask : numbers (x.1, of16 (.ofNat (x.2 / 256)) (.ofNat x.2)) = numbers x := by
      rw [of16_be16, numbers_eq, numbers_eq, bits_mod]
    rw [List.flatMap_cons, List.flatMap_cons, ← ih, ← hmask]
    simp only [fciBytes, be16, List.cons_append, List.nil_append, readFci, hpid]

theorem length_fciBytes (l : List Fci) : (l.flatMap fciBytes).length = l.length * 4 := by
  induction l with
  | nil => rfl
  | cons x l ih =>
    rw [List.flatMap_cons, List.length_append, ih, List.length_cons]
    exact (Nat.add_comm 4 _).trans (Nat.succ_mul _ 4).symm

theorem parseNack_body (media : UInt32) (l : List Fci) :
    parseNack (be32 senderSsrc ++ be32 media.toNat ++ l.flatMap fciBytes) =
      some (media, l.flatMap numbers) := by
  have hmedia : get32 (be32 senderSsrc ++ be32 media.toNat ++ l.flatMap fciBytes) 4 =
      some media.toNat := congrArg some (of32_be32 media.toNat_lt)
  have hdrop : (be32 senderSsrc ++ be32 media.toNat ++ l.flatMap fciBytes).drop 8 =
      l.flatMap fciBytes := rfl
  rw [parseNack, hmedia, hdrop, readFci_groups]
  simp

/-- Numbers that are all different are ascending when they are sorted. -/
theorem pairwise_mergeSort {seqs : List UInt16} (h : seqs.Nodup) :
    (seqs.mergeSort (· ≤ ·)).Pairwise (·.toNat < ·.toNat) := by
  have hle := List.pairwise_mergeSort' (· ≤ ·) seqs
  have hne : (seqs.mergeSort (· ≤ ·)).Pairwise (· ≠ ·) :=
    (List.mergeSort_perm seqs _).nodup_iff.mpr h
  refine (hle.and hne).imp fun {a b} h => ?_
  have hlt := UInt16.le_iff_toNat_le.mp h.1
  have hdiff : a.toNat ≠ b.toNat := fun e => h.2 (UInt16.toNat_inj.mp e)
  omega

/-- **Requests are read back as what they ask for.** -/
theorem nack_sent_and_read (media : UInt32) {seqs : List UInt16} (h : seqs.Nodup) : ∃ body l,
    split (buildNack media seqs) = [⟨1, 205, body⟩] ∧ parseNack body = some (media, l) ∧
      l.Perm seqs ∧ l.Pairwise (· < ·) := by
  have hs := pairwise_mergeSort h
  refine ⟨be32 senderSsrc ++ be32 media.toNat ++
      (groupsOf (seqs.mergeSort (· ≤ ·))).flatMap fciBytes,
    seqs.mergeSort (· ≤ ·), ?_, ?_, List.mergeSort_perm seqs _,
    hs.imp UInt16.lt_iff_toNat_lt.mpr⟩
  · have hlen : (be32 senderSsrc ++ be32 media.toNat ++
        (groupsOf (seqs.mergeSort (· ≤ ·))).flatMap fciBytes).length =
        (2 + (groupsOf (seqs.mergeSort (· ≤ ·))).length) * 4 := by
      rw [List.length_append, length_fciBytes, Nat.add_mul]
      rfl
    exact split_one (by decide) (length_groupsOf hs) hlen
  · rw [parseNack_body, numbers_groupsOf hs]

/-- Around the wrap, and at distances 16 and 17. -/
theorem nack_sent_and_read_wrap : ∃ body l,
    split (buildNack 7 [65535, 0, 16, 17, 33]) = [⟨1, 205, body⟩] ∧
      parseNack body = some (7, l) ∧ l.Perm [65535, 0, 16, 17, 33] ∧ l.Pairwise (· < ·) :=
  nack_sent_and_read 7 (by decide)

end OxlensSfu.Rtcp
