import Mathlib.Tactic
import OxlensSfu.Lib.Reader
import OxlensSfu.Mesh.Wire

/-!
# The codec of the mesh

How a message becomes bytes and bytes a message (`crates/oxmesh/src/wire.rs`): a tag, numbers in
groups of seven bits, and strings, payloads and lists behind their lengths. `Cur` reads from a
position in the bytes and may look at how many are left, so what it reads depends on more than
what it takes.

**Theorem (`codec_exact`).** Every message is decoded from its encoding. Nothing is decoded from
an encoding that is cut short, nor from one with bytes after it, and no bytes lead the decoder
outside of them.

Each part of a message has a lemma of two: its reader is steady, and reads what was put.
-/

namespace OxlensSfu.Wire

open Lib Lib.Reader
open Mesh (Role DeclKind TokenEvtKind CloseReason Lane)

/-- A `Vec`: its length is a `usize`. -/
def Vec (α : Type) : Type := { l : List α // l.length < 2 ^ 64 }

instance {α : Type} [DecidableEq α] : DecidableEq (Vec α) :=
  inferInstanceAs (DecidableEq { l : List α // l.length < 2 ^ 64 })

def Vec.len {α : Type} (v : Vec α) : UInt64 := UInt64.ofNat v.1.length

theorem Vec.toNat_len {α : Type} (v : Vec α) : v.len.toNat = v.1.length :=
  UInt64.toNat_ofNat_of_lt v.2

/-- The bytes are text in UTF-8. -/
def Utf8 (v : Vec UInt8) : Prop := (ByteArray.mk v.1.toArray).IsValidUTF8

instance (v : Vec UInt8) : Decidable (Utf8 v) :=
  inferInstanceAs (Decidable (ByteArray.mk v.1.toArray).IsValidUTF8)

/-- A `String`. -/
def Str : Type := { v : Vec UInt8 // Utf8 v }

instance : DecidableEq Str := inferInstanceAs (DecidableEq { v : Vec UInt8 // Utf8 v })

structure Hello where
  proto : UInt8
  role : Role
  node : Str
  boot : UInt64
  sno : UInt64
  leaseMs : UInt32
  listen : Vec Str
  peers : Vec (Str × Str)
  deriving DecidableEq

inductive Msg where
  | hello (h : Hello)
  | close (reason : CloseReason)
  | keepAlive
  | declare (kind : DeclKind) (id : UInt64) (expr : Str)
  | undeclare (kind : DeclKind) (id : UInt64)
  | declareDone
  | tokenSub (id : UInt64) (expr : Str) (history : Bool)
  | tokenUnsub (id : UInt64)
  | tokenEvt (id : UInt64) (kind : TokenEvtKind) (key : Str)
  | peers (list : Vec (Str × Str))
  | put (key : Str) (payload : Vec UInt8)
  | request (qid : UInt64) (expr : Str) (payload : Vec UInt8) (timeoutMs : UInt32)
  | reply (qid : UInt64) (key : Str) (ok : Bool) (payload : Vec UInt8)
  | final (qid : UInt64)
  deriving DecidableEq

/-! ## Putting -/

def putVar (v : UInt64) : List UInt8 :=
  let byte := (v &&& 0x7f).toUInt8
  let rest := v >>> 7
  if rest = 0 then [byte] else (byte ||| 0x80) :: putVar rest
termination_by v.toNat
decreasing_by
  rename_i h
  have hrest : (v >>> 7).toNat = v.toNat / 128 := by
    rw [UInt64.toNat_shiftRight, Nat.shiftRight_eq_div_pow]
    rfl
  have hne : (v >>> 7).toNat ≠ 0 := fun h0 => h (UInt64.toNat_inj.mp h0)
  omega

def putBytes (v : Vec UInt8) : List UInt8 := putVar v.len ++ v.1

def putStr (s : Str) : List UInt8 := putBytes s.1

def putStrs (l : Vec Str) : List UInt8 := putVar l.len ++ l.1.flatMap putStr

def putPairs (l : Vec (Str × Str)) : List UInt8 :=
  putVar l.len ++ l.1.flatMap fun x => putStr x.1 ++ putStr x.2

def roleByte : Role → UInt8
  | .router => 0
  | .client => 1

def kindByte : DeclKind → UInt8
  | .token => 0
  | .sub => 1
  | .qabl => 2

def evtByte : TokenEvtKind → UInt8
  | .put => 0
  | .delete => 1
  | .batchEnd => 2

def reasonByte : CloseReason → UInt8
  | .shutdown => 0
  | .expired => 1
  | .fenced => 2
  | .replaced => 3
  | .refused => 4
  | .duplicate => 5
  | .protocol => 6
  | .io => 7

def boolByte (b : Bool) : UInt8 := if b then 1 else 0

def Hello.encode (h : Hello) : List UInt8 :=
  h.proto :: roleByte h.role :: (putStr h.node ++ (putVar h.boot ++ (putVar h.sno ++
    (putVar h.leaseMs.toUInt64 ++ (putStrs h.listen ++ putPairs h.peers)))))

def Msg.encode : Msg → List UInt8
  | .hello h => 0 :: h.encode
  | .close r => [1, reasonByte r]
  | .keepAlive => [2]
  | .declare kind id expr => 3 :: kindByte kind :: (putVar id ++ putStr expr)
  | .undeclare kind id => 4 :: kindByte kind :: putVar id
  | .declareDone => [5]
  | .tokenSub id expr history => 6 :: (putVar id ++ (putStr expr ++ [boolByte history]))
  | .tokenUnsub id => 7 :: putVar id
  | .tokenEvt id kind key => 8 :: (putVar id ++ (evtByte kind :: putStr key))
  | .peers p => 9 :: putPairs p
  | .put key payload => 10 :: (putStr key ++ putBytes payload)
  | .request qid expr payload timeoutMs =>
    11 :: (putVar qid ++ (putStr expr ++ (putBytes payload ++ putVar timeoutMs.toUInt64)))
  | .reply qid key ok payload =>
    12 :: (putVar qid ++ (putStr key ++ (boolByte ok :: putBytes payload)))
  | .final qid => 13 :: putVar qid

/-! ## Reading -/

abbrev Cur (α : Type) : Type := Reader UInt8 α

namespace Cur

def u8 : Cur UInt8 := item

/-- The rounds of `var` that are left, by their shifts. -/
def varFrom (v : UInt64) : List UInt64 → Cur UInt64
  | [] => fail
  | shift :: shifts => do
    let byte ← u8
    let v := v ||| ((byte &&& 0x7f).toUInt64 <<< shift)
    if byte &&& 0x80 = 0 then pure v else varFrom v shifts

def var : Cur UInt64 := varFrom 0 ((List.range' 0 10 7).map UInt64.ofNat)

/-- A length, no longer than what is left. -/
def len : Cur UInt64 := do
  let n ← var
  let k ← left
  if n.toNat ≤ k then pure n else fail

def bytes : Cur (Vec UInt8) := do
  let n ← len
  let v ← slice n.toNat
  pure ⟨v.1, v.2.symm ▸ n.toNat_lt⟩

def str : Cur Str := do
  let v ← bytes
  if h : Utf8 v then pure ⟨v, h⟩ else fail

def u32 : Cur UInt32 := do
  let v ← var
  if v.toNat < 2 ^ 32 then pure v.toUInt32 else fail

def role : Cur Role := do
  let b ← u8
  match b.toNat with
  | 0 => pure .router
  | 1 => pure .client
  | _ => fail

def kind : Cur DeclKind := do
  let b ← u8
  match b.toNat with
  | 0 => pure .token
  | 1 => pure .sub
  | 2 => pure .qabl
  | _ => fail

def evtKind : Cur TokenEvtKind := do
  let b ← u8
  match b.toNat with
  | 0 => pure .put
  | 1 => pure .delete
  | 2 => pure .batchEnd
  | _ => fail

/-- A byte that is no reason stands for the last one. -/
def reasonOf (b : UInt8) : CloseReason :=
  match b.toNat with
  | 0 => .shutdown
  | 1 => .expired
  | 2 => .fenced
  | 3 => .replaced
  | 4 => .refused
  | 5 => .duplicate
  | 6 => .protocol
  | _ => .io

def reason : Cur CloseReason := do
  let b ← u8
  pure (reasonOf b)

def flag : Cur Bool := do
  let b ← u8
  pure (b ≠ 0)

def pair : Cur (Str × Str) := do
  let k ← str
  let v ← str
  pure (k, v)

/-- A count, and as many of what `r` reads. -/
def many {α : Type} (r : Cur α) : Cur (Vec α) := do
  let n ← len
  let l ← times r n.toNat
  pure ⟨l.1, l.2.symm ▸ n.toNat_lt⟩

def strs : Cur (Vec Str) := many str

def pairs : Cur (Vec (Str × Str)) := many pair

def hello : Cur Hello := do
  let proto ← u8
  let role ← role
  let node ← str
  let boot ← var
  let sno ← var
  let leaseMs ← u32
  let listen ← strs
  let peers ← pairs
  pure ⟨proto, role, node, boot, sno, leaseMs, listen, peers⟩

def msg : Cur Msg := do
  let tag ← u8
  match tag.toNat with
  | 0 => do
    let h ← hello
    pure (.hello h)
  | 1 => do
    let r ← reason
    pure (.close r)
  | 2 => pure .keepAlive
  | 3 => do
    let kind ← kind
    let id ← var
    let expr ← str
    pure (.declare kind id expr)
  | 4 => do
    let kind ← kind
    let id ← var
    pure (.undeclare kind id)
  | 5 => pure .declareDone
  | 6 => do
    let id ← var
    let expr ← str
    let history ← flag
    pure (.tokenSub id expr history)
  | 7 => do
    let id ← var
    pure (.tokenUnsub id)
  | 8 => do
    let id ← var
    let kind ← evtKind
    let key ← str
    pure (.tokenEvt id kind key)
  | 9 => do
    let p ← pairs
    pure (.peers p)
  | 10 => do
    let key ← str
    let payload ← bytes
    pure (.put key payload)
  | 11 => do
    let qid ← var
    let expr ← str
    let payload ← bytes
    let timeoutMs ← u32
    pure (.request qid expr payload timeoutMs)
  | 12 => do
    let qid ← var
    let key ← str
    let ok ← flag
    let payload ← bytes
    pure (.reply qid key ok payload)
  | 13 => do
    let qid ← var
    pure (.final qid)
  | _ => fail

end Cur

/-- An error is an index outside of the bytes. -/
def Msg.decode (b : List UInt8) : Except Outside (Option Msg) := Reader.whole Cur.msg b

/-! ## Numbers -/

theorem toNat_low (v : UInt64) : ((v &&& 0x7f).toUInt8).toNat = v.toNat % 128 := by
  have h : (v &&& 0x7f).toNat = v.toNat % 2 ^ 7 := by
    rw [UInt64.toNat_and, ← Nat.and_two_pow_sub_one_eq_mod]
    rfl
  rw [UInt64.toNat_toUInt8, h]
  omega

theorem toNat_rest (v : UInt64) : (v >>> 7).toNat = v.toNat / 128 := by
  rw [UInt64.toNat_shiftRight, Nat.shiftRight_eq_div_pow]
  rfl

/-- What the two masks make of a group, and of a group that others follow. -/
theorem group_bits (x : UInt8) (h : x.toNat < 128) :
    x &&& 0x7f = x ∧ x &&& 0x80 = 0 ∧ (x ||| 0x80) &&& 0x7f = x ∧ (x ||| 0x80) &&& 0x80 ≠ 0 := by
  have all : ∀ n : Fin 128, let y := UInt8.ofNat n.1
      y &&& 0x7f = y ∧ y &&& 0x80 = 0 ∧ (y ||| 0x80) &&& 0x7f = y ∧ (y ||| 0x80) &&& 0x80 ≠ 0 := by
    decide
  have := all ⟨x.toNat, h⟩
  simpa only [UInt8.ofNat_toNat] using this

/-- A group of seven bits goes above the bits that are there. -/
theorem toNat_above {acc : UInt64} {x : UInt8} {s : Nat} (hs : s < 64) (ha : acc.toNat < 2 ^ s)
    (hx : x.toNat * 2 ^ s < 2 ^ 64) :
    (acc ||| (x.toUInt64 <<< UInt64.ofNat s)).toNat = acc.toNat + x.toNat * 2 ^ s := by
  have hshift : (UInt64.ofNat s).toNat % 64 = s := by
    rw [UInt64.toNat_ofNat', Nat.mod_eq_of_lt (by omega : s < 2 ^ 64), Nat.mod_eq_of_lt hs]
  rw [UInt64.toNat_or, UInt64.toNat_shiftLeft, hshift, UInt8.toNat_toUInt64, Nat.shiftLeft_eq,
    Nat.mod_eq_of_lt hx, Nat.or_comm, Nat.mul_comm, ← Nat.two_pow_add_eq_or_of_lt ha]
  omega

theorem putVar_ne_nil (v : UInt64) : putVar v ≠ [] := by
  rw [putVar]
  split <;> exact List.cons_ne_nil _ _

namespace Cur

theorem u8_steady : Steady u8 := .item

theorem varFrom_steady : ∀ (shifts : List UInt64) (v : UInt64), Steady (varFrom v shifts)
  | [], _ => .fail
  | _ :: shifts, _ => u8_steady.bind fun _ => .ite (.pure _) (varFrom_steady shifts _)

theorem var_steady : Steady var := varFrom_steady _ _

variable {s : Nat} {w acc : UInt64} {shifts : List UInt64}

/-- A group is taken from its byte, whatever the mark in it. -/
theorem toNat_taken {x : UInt8} (hx : x &&& 0x7f = (w &&& 0x7f).toUInt8) (hs : s < 64)
    (ha : acc.toNat < 2 ^ s) (hw : w.toNat * 2 ^ s < 2 ^ 64) :
    (acc ||| ((x &&& 0x7f).toUInt64 <<< UInt64.ofNat s)).toNat =
      acc.toNat + w.toNat % 128 * 2 ^ s := by
  have hle : w.toNat % 128 * 2 ^ s ≤ w.toNat * 2 ^ s :=
    Nat.mul_le_mul_right _ (Nat.mod_le _ _)
  rw [hx, toNat_above hs ha (by rw [toNat_low]; omega), toNat_low]

theorem varFrom_last (hrest : w >>> 7 = 0) (hs : s < 64) (ha : acc.toNat < 2 ^ s)
    (hw : w.toNat * 2 ^ s < 2 ^ 64) :
    Reads 0 (varFrom acc (UInt64.ofNat s :: shifts)) (putVar w)
      (UInt64.ofNat (acc.toNat + w.toNat * 2 ^ s)) := by
  obtain ⟨h7, h8, -, -⟩ := group_bits (w &&& 0x7f).toUInt8 (by rw [toNat_low]; omega)
  have hsmall : w.toNat % 128 = w.toNat := by
    have := congrArg UInt64.toNat hrest
    rw [toNat_rest, UInt64.toNat_zero] at this
    omega
  have hv := toNat_taken h7 hs ha hw
  rw [hsmall] at hv
  rw [putVar, if_pos hrest, ← hv, UInt64.ofNat_toNat]
  refine (Reads.item _).bind (e := [_]) (d := []) ?_ (Nat.zero_le _)
  rw [if_pos h8]
  exact .pure _

theorem varFrom_more {v : UInt64} (hrest : w >>> 7 ≠ 0) (hs : s < 64) (ha : acc.toNat < 2 ^ s)
    (hw : w.toNat * 2 ^ s < 2 ^ 64)
    (h : ∀ acc' : UInt64, acc'.toNat = acc.toNat + w.toNat % 128 * 2 ^ s →
      Reads 0 (varFrom acc' shifts) (putVar (w >>> 7)) v) :
    Reads 0 (varFrom acc (UInt64.ofNat s :: shifts)) (putVar w) v := by
  obtain ⟨-, -, h7, h8⟩ := group_bits (w &&& 0x7f).toUInt8 (by rw [toNat_low]; omega)
  rw [putVar, if_neg hrest]
  refine (Reads.item _).bind (e := [_]) ?_ (Nat.zero_le _)
  rw [if_neg h8]
  exact h _ (toNat_taken h7 hs ha hw)

/-- The rounds from shift `s` on read the groups of `w` above what they have. -/
theorem varFrom_reads (n : Nat) : ∀ (s : Nat) (w acc : UInt64), s + 7 * n = 63 →
    acc.toNat < 2 ^ s → w.toNat * 2 ^ s < 2 ^ 64 →
    Reads 0 (varFrom acc ((List.range' s (n + 1) 7).map UInt64.ofNat)) (putVar w)
      (UInt64.ofNat (acc.toNat + w.toNat * 2 ^ s)) := by
  induction n with
  | zero =>
    intro s w acc hs ha hw
    obtain rfl : s = 63 := hs
    refine varFrom_last (UInt64.toNat_inj.mp ?_) (by omega) ha hw
    rw [toNat_rest, UInt64.toNat_zero]
    omega
  | succ n ih =>
    intro s w acc hs ha hw
    rw [List.range'_succ, List.map_cons]
    by_cases hrest : w >>> 7 = 0
    · exact varFrom_last hrest (by omega) ha hw
    · refine varFrom_more hrest (by omega) ha hw fun acc' hacc => ?_
      have hpow : 2 ^ (s + 7) = 128 * 2 ^ s := by rw [Nat.pow_add, Nat.mul_comm]
      -- the groups of `w` are its first one and those of what is shifted down
      have hsplit : w.toNat * 2 ^ s =
          w.toNat % 128 * 2 ^ s + (w >>> 7).toNat * 2 ^ (s + 7) := by
        conv_lhs => rw [← Nat.mod_add_div w.toNat 128]
        rw [toNat_rest, hpow, Nat.add_mul]
        ring
      have hlow : w.toNat % 128 * 2 ^ s ≤ 127 * 2 ^ s :=
        Nat.mul_le_mul_right _ (by omega)
      have := ih (s + 7) (w >>> 7) acc' (by omega) (by omega) (by omega)
      rwa [hacc, Nat.add_assoc, ← hsplit] at this

theorem var_reads (v : UInt64) : Reads 0 var (putVar v) v := by
  have h := varFrom_reads 9 0 v 0 rfl (by decide) (by simpa using v.toNat_lt)
  simpa [var] using h

/-! ## The parts of a message -/

theorem len_steady : Steady len := var_steady.bounded _

theorem len_reads (n : UInt64) : Reads n.toNat len (putVar n) n := (var_reads n).bounded _

theorem bytes_steady : Steady bytes :=
  len_steady.bind_slice (fun _ _ _ _ hi h => Steady.fits_bounded var_steady hi h)
    fun _ _ => .pure _

theorem bytes_reads (v : Vec UInt8) : Reads 0 bytes (putBytes v) v :=
  (len_reads v.len).bind
    ((Reads.slice v.toNat_len.symm).map fun l => (⟨l.1, l.2.symm ▸ v.len.toNat_lt⟩ : Vec UInt8))
    v.toNat_len.le

theorem str_steady : Steady str := bytes_steady.bind fun _ => by
  split
  · exact .pure _
  · exact .fail

theorem str_reads (s : Str) : Reads 0 str (putStr s) s := by
  rw [putStr, ← List.append_nil (putBytes s.1)]
  refine (bytes_reads s.1).bind ?_ (Nat.zero_le _)
  rw [dif_pos s.2]
  exact .pure _

theorem u32_steady : Steady u32 := var_steady.bind fun _ => .ite (.pure _) .fail

theorem u32_reads (v : UInt32) : Reads 0 u32 (putVar v.toUInt64) v := by
  rw [← List.append_nil (putVar v.toUInt64)]
  refine (var_reads v.toUInt64).bind ?_ (Nat.zero_le _)
  rw [if_pos (by rw [UInt32.toNat_toUInt64]; exact v.toNat_lt), UInt32.toUInt32_toUInt64]
  exact .pure _

theorem role_steady : Steady role := u8_steady.bind fun _ => by
  split
  · exact .pure _
  · exact .pure _
  · exact .fail

theorem role_reads (r : Role) : Reads 0 role [roleByte r] r := by
  refine (Reads.item _).bind (d := []) ?_ (Nat.zero_le _)
  cases r <;> exact .pure _

theorem kind_steady : Steady kind := u8_steady.bind fun _ => by
  split
  · exact .pure _
  · exact .pure _
  · exact .pure _
  · exact .fail

theorem kind_reads (k : DeclKind) : Reads 0 kind [kindByte k] k := by
  refine (Reads.item _).bind (d := []) ?_ (Nat.zero_le _)
  cases k <;> exact .pure _

theorem evtKind_steady : Steady evtKind := u8_steady.bind fun _ => by
  split
  · exact .pure _
  · exact .pure _
  · exact .pure _
  · exact .fail

theorem evtKind_reads (k : TokenEvtKind) : Reads 0 evtKind [evtByte k] k := by
  refine (Reads.item _).bind (d := []) ?_ (Nat.zero_le _)
  cases k <;> exact .pure _

theorem reasonOf_reasonByte (r : CloseReason) : reasonOf (reasonByte r) = r := by
  cases r <;> rfl

theorem reason_steady : Steady reason := u8_steady.bind fun _ => .pure _

theorem reason_reads (r : CloseReason) : Reads 0 reason [reasonByte r] r := by
  have h := (Reads.item (reasonByte r)).map reasonOf
  rwa [reasonOf_reasonByte] at h

theorem flag_steady : Steady flag := u8_steady.bind fun _ => .pure _

theorem flag_reads (b : Bool) : Reads 0 flag [boolByte b] b := by
  have h := (Reads.item (boolByte b)).map fun x => decide (x ≠ 0)
  cases b <;> exact h

theorem pair_steady : Steady pair :=
  str_steady.bind fun _ => str_steady.bind fun _ => .pure _

theorem pair_reads (x : Str × Str) : Reads 0 pair (putStr x.1 ++ putStr x.2) x :=
  (str_reads x.1).bind ((str_reads x.2).map fun v => (x.1, v)) (Nat.zero_le _)

section Many

variable {α : Type} {r : Cur α} {enc : α → List UInt8}

theorem many_steady (hr : Steady r) : Steady (many r) :=
  len_steady.bind fun _ => (hr.times _).bind fun _ => .pure _

/-- Each item takes a byte at least, so that as many are left as were counted. -/
theorem many_reads (hr : ∀ a, Reads 0 r (enc a) a) (henc : ∀ a, enc a ≠ []) (v : Vec α) :
    Reads 0 (many r) (putVar v.len ++ v.1.flatMap enc) v := by
  have hlen : ∀ l : List α, l.length ≤ (l.flatMap enc).length := by
    intro l
    induction l with
    | nil => exact Nat.le_refl _
    | cons a l ih =>
      have := List.length_pos_iff.mpr (henc a)
      rw [List.flatMap_cons, List.length_append, List.length_cons]
      omega
  exact (len_reads v.len).bind
    ((Reads.times hr v.toNat_len.symm).map fun l =>
      (⟨l.1, l.2.symm ▸ v.len.toNat_lt⟩ : Vec α))
    (v.toNat_len.le.trans (hlen v.1))

end Many

theorem putBytes_ne_nil (v : Vec UInt8) : putBytes v ≠ [] :=
  List.append_ne_nil_of_left_ne_nil (putVar_ne_nil _) _

theorem strs_reads (l : Vec Str) : Reads 0 strs (putStrs l) l :=
  many_reads str_reads (fun s => putBytes_ne_nil s.1) l

theorem pairs_reads (l : Vec (Str × Str)) : Reads 0 pairs (putPairs l) l :=
  many_reads pair_reads
    (fun x => List.append_ne_nil_of_left_ne_nil (putBytes_ne_nil x.1.1) _) l

theorem pairs_steady : Steady pairs := many_steady pair_steady

theorem hello_steady : Steady hello :=
  u8_steady.bind fun _ => role_steady.bind fun _ => str_steady.bind fun _ =>
  var_steady.bind fun _ => var_steady.bind fun _ => u32_steady.bind fun _ =>
  (many_steady str_steady).bind fun _ => pairs_steady.bind fun _ => .pure _

theorem hello_reads (h : Hello) : Reads 0 hello h.encode h :=
  (Reads.item h.proto).bind (e := [_]) ((role_reads h.role).bind (e := [_])
    ((str_reads h.node).bind ((var_reads h.boot).bind ((var_reads h.sno).bind
    ((u32_reads h.leaseMs).bind ((strs_reads h.listen).bind ((pairs_reads h.peers).map _)
    (Nat.zero_le _)) (Nat.zero_le _)) (Nat.zero_le _)) (Nat.zero_le _)) (Nat.zero_le _))
    (Nat.zero_le _)) (Nat.zero_le _)

theorem msg_steady : Steady msg := u8_steady.bind fun tag => by
  split
  · exact hello_steady.bind fun _ => .pure _
  · exact reason_steady.bind fun _ => .pure _
  · exact .pure _
  · exact kind_steady.bind fun _ => var_steady.bind fun _ => str_steady.bind fun _ => .pure _
  · exact kind_steady.bind fun _ => var_steady.bind fun _ => .pure _
  · exact .pure _
  · exact var_steady.bind fun _ => str_steady.bind fun _ => flag_steady.bind fun _ => .pure _
  · exact var_steady.bind fun _ => .pure _
  · exact var_steady.bind fun _ => evtKind_steady.bind fun _ => str_steady.bind fun _ => .pure _
  · exact pairs_steady.bind fun _ => .pure _
  · exact str_steady.bind fun _ => bytes_steady.bind fun _ => .pure _
  · exact var_steady.bind fun _ => str_steady.bind fun _ => bytes_steady.bind fun _ =>
      u32_steady.bind fun _ => .pure _
  · exact var_steady.bind fun _ => str_steady.bind fun _ => flag_steady.bind fun _ =>
      bytes_steady.bind fun _ => .pure _
  · exact var_steady.bind fun _ => .pure _
  · exact .fail

theorem msg_reads (m : Msg) : Reads 0 msg m.encode m := by
  cases m with
  | hello h =>
    exact (Reads.item 0).bind (e := [0]) ((hello_reads h).map _) (Nat.zero_le _)
  | close r => exact (Reads.item 1).bind (e := [1]) ((reason_reads r).map _) (Nat.zero_le _)
  | keepAlive => exact (Reads.item 2).bind (e := [2]) (Reads.pure _) (Nat.zero_le _)
  | declare kind id expr =>
    exact (Reads.item 3).bind (e := [3]) ((kind_reads kind).bind (e := [_])
      ((var_reads id).bind ((str_reads expr).map _) (Nat.zero_le _)) (Nat.zero_le _))
      (Nat.zero_le _)
  | undeclare kind id =>
    exact (Reads.item 4).bind (e := [4]) ((kind_reads kind).bind (e := [_])
      ((var_reads id).map _) (Nat.zero_le _)) (Nat.zero_le _)
  | declareDone => exact (Reads.item 5).bind (e := [5]) (Reads.pure _) (Nat.zero_le _)
  | tokenSub id expr history =>
    exact (Reads.item 6).bind (e := [6]) ((var_reads id).bind ((str_reads expr).bind
      ((flag_reads history).map _) (Nat.zero_le _)) (Nat.zero_le _)) (Nat.zero_le _)
  | tokenUnsub id => exact (Reads.item 7).bind (e := [7]) ((var_reads id).map _) (Nat.zero_le _)
  | tokenEvt id kind key =>
    exact (Reads.item 8).bind (e := [8]) ((var_reads id).bind ((evtKind_reads kind).bind (e := [_])
      ((str_reads key).map _) (Nat.zero_le _)) (Nat.zero_le _)) (Nat.zero_le _)
  | peers p => exact (Reads.item 9).bind (e := [9]) ((pairs_reads p).map _) (Nat.zero_le _)
  | put key payload =>
    exact (Reads.item 10).bind (e := [10]) ((str_reads key).bind ((bytes_reads payload).map _)
      (Nat.zero_le _)) (Nat.zero_le _)
  | request qid expr payload timeoutMs =>
    exact (Reads.item 11).bind (e := [11]) ((var_reads qid).bind ((str_reads expr).bind
      ((bytes_reads payload).bind ((u32_reads timeoutMs).map _) (Nat.zero_le _)) (Nat.zero_le _))
      (Nat.zero_le _)) (Nat.zero_le _)
  | reply qid key ok payload =>
    exact (Reads.item 12).bind (e := [12]) ((var_reads qid).bind ((str_reads key).bind
      ((flag_reads ok).bind (e := [_]) ((bytes_reads payload).map _) (Nat.zero_le _))
      (Nat.zero_le _)) (Nat.zero_le _)) (Nat.zero_le _)
  | final qid => exact (Reads.item 13).bind (e := [13]) ((var_reads qid).map _) (Nat.zero_le _)

end Cur

/-! ## Main results -/

theorem decode_encode (m : Msg) : Msg.decode m.encode = .ok (some m) :=
  whole_of_reads (Cur.msg_reads m)

/-- What decodes is no proper beginning of an encoding and has no encoding as one. -/
theorem codec_exact :
    (∀ m : Msg, Msg.decode m.encode = .ok (some m)) ∧
    (∀ (m : Msg) (p c : List UInt8), m.encode = p ++ c → c ≠ [] → Msg.decode p = .ok none) ∧
    (∀ (m : Msg) (c : List UInt8), c ≠ [] → Msg.decode (m.encode ++ c) = .ok none) ∧
    (∀ b : List UInt8, Msg.decode b ≠ .error .outside) := by
  refine ⟨decode_encode, fun m p c h hc => ?_, fun m c hc => ?_, fun b => ?_⟩
  · exact whole_of_cut Cur.msg_steady (h ▸ Cur.msg_reads m) hc
  · exact whole_of_more (Cur.msg_reads m) hc
  · obtain ⟨o, ho⟩ := whole_inside Cur.msg_steady b
    rw [Msg.decode, ho]
    exact fun h => nomatch h

/-- The tag alone is no message, and neither is the message with a byte after it. -/
theorem codec_exact_final :
    Msg.decode [13] = .ok none ∧ Msg.decode ((Msg.final 1).encode ++ [0]) = .ok none := by
  have henc : (Msg.final 1).encode = [13] ++ [1] := by
    rw [Msg.encode, putVar]
    decide
  exact ⟨codec_exact.2.1 (.final 1) [13] [1] henc (by decide),
    codec_exact.2.2.1 (.final 1) [0] (by decide)⟩

end OxlensSfu.Wire
