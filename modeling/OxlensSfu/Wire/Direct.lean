import OxlensSfu.Wire.Lanes

/-!
# Hello

Before a session has its loops, its ends say hello on the bare connection (`send_direct` and
`recv_direct` of `crates/oxmesh/src/session.rs`). The sender cuts the hello into frames like any
message. The receiver takes one frame, and refuses a frame that others follow.

A hello lists where its node listens and every router that the node has a session with and knows
an address of (`my_hello` of `core.rs`). It grows with the mesh.

**Theorem (`hello_received_iff`).** The hello of a node is received exactly when it fits in one
frame. `Core.helloLen` gives its length, field by field.
-/

namespace OxlensSfu.Wire.Direct

open Mesh (Role Lane)

/-! ## The bare connection -/

def sendDirect (m : Msg) : List UInt8 := m.frames.flatten

/-- The message, and what is left to be read. -/
def recvDirect (s : List UInt8) : Option (Msg × List UInt8) :=
  match readFrame s with
  | .error _ => none
  | .ok (lane, flags, chunk, rest) =>
    if lane ≠ .control ∨ flags ≠ 0 then none
    else
      match Msg.decode chunk with
      | .ok (some m) => some (m, rest)
      | _ => none

/-- What `recvDirect` makes of a frame. -/
theorem recvDirect_frame {lane : Lane} {flags : UInt8} {chunk : List UInt8}
    (h : chunk.length ≤ room) (rest : List UInt8) :
    recvDirect (frame lane flags chunk ++ rest) =
      if lane ≠ .control ∨ flags ≠ 0 then none
      else
        match Msg.decode chunk with
        | .ok (some m) => some (m, rest)
        | _ => none := by
  rw [recvDirect, readFrame_frame h]

/-- **A message of the control lane is received when it fits in one frame, and else refused.** -/
theorem recvDirect_sendDirect {m : Msg} (hm : m.lane = .control) (rest : List UInt8) :
    recvDirect (sendDirect m ++ rest) =
      if m.encode.length ≤ room then some (m, rest) else none := by
  rw [sendDirect, Msg.frames, hm]
  rcases framesFrom_eq .control m.encode with ⟨hlen, hframes⟩ | ⟨hlen, hframes⟩
  · rw [hframes, List.flatten_cons, List.append_assoc, if_neg (not_le.2 hlen),
      recvDirect_frame (List.length_take_le _ _), if_pos (.inr (by decide))]
  · rw [hframes, List.flatten_cons, List.flatten_nil, List.append_nil, if_pos hlen,
      recvDirect_frame hlen, if_neg (by simp), decode_encode]

/-! ## What a core says of itself -/

structure Sess where
  peer : Str
  role : Role
  adv : Option Str := none

/-- What a hello is made of. -/
structure Core where
  node : Str
  router : Bool
  boot : UInt64
  leaseMs : UInt64
  listen : Vec Str
  /-- In the order in which the map yields them. -/
  sessions : Vec Sess

namespace Core

variable (c : Core)

/-- The routers with an address. -/
def links : List (Str × Str) :=
  (c.sessions.1.filter (·.role = .router)).filterMap fun s => s.adv.map (s.peer, ·)

theorem length_links : c.links.length ≤ c.sessions.1.length :=
  (List.length_filterMap_le _ _).trans (List.length_filter_le _ _)

def peerList : Vec (Str × Str) where
  val := c.links.insertionSort fun a b =>
    a.1.text < b.1.text ∨ a.1.text = b.1.text ∧ a.2.text ≤ b.2.text
  property := by
    rw [List.length_insertionSort]
    exact c.length_links.trans_lt c.sessions.2

def myHello (sno : UInt64) : Hello where
  proto := UInt8.ofNat Mesh.proto
  role := if c.router then .router else .client
  node := c.node
  boot := c.boot
  sno := sno
  leaseMs := c.leaseMs.toUInt32
  listen := c.listen
  peers := c.peerList

end Core

/-! ## How long a hello is -/

def varLen (v : UInt64) : Nat := Nat.log 128 v.toNat + 1

def strLen (s : Str) : Nat := varLen s.1.len + s.1.1.length

theorem length_putVar (v : UInt64) : (putVar v).length = varLen v := by
  induction v using putVar.induct with
  | case1 v rest h =>
    have hsmall : v.toNat / 128 = 0 := by
      rw [← toNat_rest]
      exact congrArg UInt64.toNat h
    rw [putVar, if_pos h, varLen, Nat.log_of_lt (by omega)]
    rfl
  | case2 v rest h ih =>
    have hbig : 128 ≤ v.toNat := by
      by_contra hlt
      refine h (UInt64.toNat_inj.1 ?_)
      rw [toNat_rest, UInt64.toNat_zero]
      omega
    rw [putVar, if_neg h, List.length_cons, ih, varLen, varLen, toNat_rest,
      Nat.log_of_one_lt_of_le (by decide) hbig]

theorem length_putStr (s : Str) : (putStr s).length = strLen s := by
  rw [putStr, putBytes, List.length_append, length_putVar, strLen]

theorem length_putStrs (l : Vec Str) :
    (putStrs l).length = varLen l.len + (l.1.map strLen).sum := by
  rw [putStrs, List.length_append, length_putVar, List.length_flatMap]
  simp only [length_putStr]

theorem length_putPairs (l : Vec (Str × Str)) :
    (putPairs l).length = varLen l.len + (l.1.map fun x => strLen x.1 + strLen x.2).sum := by
  rw [putPairs, List.length_append, length_putVar, List.length_flatMap]
  simp only [List.length_append, length_putStr]

namespace Core

variable (c : Core)

/-- The tag, the version and the role are a byte each. -/
def helloLen (sno : UInt64) : Nat :=
  3 + strLen c.node + varLen c.boot + varLen sno + varLen c.leaseMs.toUInt32.toUInt64 +
    (varLen c.listen.len + (c.listen.1.map strLen).sum) +
    (varLen (UInt64.ofNat c.links.length) + (c.links.map fun x => strLen x.1 + strLen x.2).sum)

theorem length_encode_myHello (sno : UInt64) :
    (Msg.hello (c.myHello sno)).encode.length = c.helloLen sno := by
  have hperm : c.peerList.1.Perm c.links := List.perm_insertionSort _ _
  have hlen : c.peerList.len = UInt64.ofNat c.links.length := by rw [Vec.len, hperm.length_eq]
  have hsum := (hperm.map fun x => strLen x.1 + strLen x.2).sum_eq
  simp only [Msg.encode, Hello.encode, myHello, List.length_cons, List.length_append,
    length_putVar, length_putStr, length_putStrs, length_putPairs, hlen, hsum, helloLen]
  omega

end Core

/-- The hello is received whole, or refused. -/
theorem recvDirect_myHello (c : Core) (sno : UInt64) (rest : List UInt8) :
    recvDirect (sendDirect (.hello (c.myHello sno)) ++ rest) =
      if c.helloLen sno ≤ room then some (.hello (c.myHello sno), rest) else none := by
  rw [recvDirect_sendDirect rfl, c.length_encode_myHello]

/-- Each of the routers that are listed takes room. -/
theorem Core.lt_helloLen (c : Core) (sno : UInt64) {k : Nat}
    (h : ∀ x ∈ c.links, k ≤ strLen x.1 + strLen x.2) : c.links.length * k < c.helloLen sno := by
  have hsum := List.card_nsmul_le_sum (c.links.map fun x => strLen x.1 + strLen x.2) k (by
    intro n hn
    obtain ⟨x, hx, rfl⟩ := List.mem_map.1 hn
    exact h x hx)
  rw [List.length_map, smul_eq_mul] at hsum
  rw [Core.helloLen]
  omega

/-! ## Main results -/

/-- **The hello of a node is received exactly when it fits in one frame.** -/
theorem hello_received_iff (c : Core) (sno : UInt64) (rest : List UInt8) :
    recvDirect (sendDirect (.hello (c.myHello sno)) ++ rest) =
        some (.hello (c.myHello sno), rest) ↔
      c.helloLen sno ≤ room := by
  rw [recvDirect_myHello]
  constructor
  · intro h
    by_contra hlen
    rw [if_neg hlen] at h
    exact nomatch h
  · intro h
    rw [if_pos h]

/-- The text of these characters. -/
def strOf (l : List Char) (h : l.length < 2 ^ 62) : Str where
  val := {
    val := l.flatMap String.utf8EncodeChar
    property := by
      have hle := List.sum_le_card_nsmul (l.map fun c => (String.utf8EncodeChar c).length) 4
        (by simpa using fun c _ => c.utf8Size_le_four)
      rw [← List.length_flatMap, List.length_map, smul_eq_mul] at hle
      omega }
  property := by
    refine ⟨l, ?_⟩
    rw [List.utf8Encode, ← List.data_toByteArray]

theorem lt_strLen_strOf {l : List Char} (h : l.length < 2 ^ 62) :
    l.length < strLen (strOf l h) := by
  have hle := List.card_nsmul_le_sum (l.map fun c => (String.utf8EncodeChar c).length) 1
    (by simpa using fun c _ => c.utf8Size_pos)
  rw [← List.length_flatMap, List.length_map, smul_eq_mul, Nat.mul_one] at hle
  have hbytes : (strOf l h).1.1 = l.flatMap String.utf8EncodeChar := rfl
  rw [strLen, varLen, hbytes]
  omega

/-- The node `n0042`, say. -/
def host (i : Nat) : List Char :=
  'n' :: [1000, 100, 10, 1].map fun k => Char.ofNat (48 + i / k % 10)

def address (i : Nat) : List Char := host i ++ ":7447".toList

theorem length_host (i : Nat) : (host i).length = 5 := rfl

theorem length_address (i : Nat) : (address i).length = 10 := rfl

def hostStr (i : Nat) : Str := strOf (host i) (by rw [length_host]; decide)

def addressStr (i : Nat) : Str := strOf (address i) (by rw [length_address]; decide)

/-- A router with sessions with `n` others. -/
def crowd (n : Nat) (h : n < 2 ^ 64) : Core where
  node := hostStr n
  router := true
  boot := 1
  leaseMs := 1000
  listen := ⟨[addressStr n], by rw [List.length_singleton]; decide⟩
  sessions := {
    val := (List.range n).map fun i =>
      { peer := hostStr i, role := .router, adv := some (addressStr i) }
    property := by rwa [List.length_map, List.length_range] }

theorem links_crowd {n : Nat} (h : n < 2 ^ 64) :
    (crowd n h).links = (List.range n).map fun i => (hostStr i, addressStr i) := by
  have hall : ∀ s ∈ (crowd n h).sessions.1, decide (s.role = .router) = true := by
    intro s hs
    obtain ⟨i, -, rfl⟩ := List.mem_map.1 hs
    rfl
  rw [Core.links, List.filter_eq_self.2 hall, crowd, List.filterMap_map]
  exact congrFun List.filterMap_eq_map _

theorem crowded_not_received :
    ¬ ∀ (c : Core) (sno : UInt64), recvDirect (sendDirect (.hello (c.myHello sno))) =
      some (.hello (c.myHello sno), []) := by
  intro h
  let c := crowd 1000 (by decide)
  have hroom : room = 16378 := rfl
  have hlen : c.links.length * 17 < c.helloLen 1 := by
    refine c.lt_helloLen 1 fun x hx => ?_
    rw [links_crowd] at hx
    obtain ⟨i, -, rfl⟩ := List.mem_map.1 hx
    have hhost : (host i).length < strLen (hostStr i) := lt_strLen_strOf _
    have haddress : (address i).length < strLen (addressStr i) := lt_strLen_strOf _
    rw [length_host] at hhost
    rw [length_address] at haddress
    exact (by omega : 17 ≤ strLen (hostStr i) + strLen (addressStr i))
  rw [links_crowd, List.length_map, List.length_range] at hlen
  have hrecv := recvDirect_myHello c 1 []
  rw [List.append_nil, h c 1, if_neg (by omega)] at hrecv
  exact nomatch hrecv

end OxlensSfu.Wire.Direct
