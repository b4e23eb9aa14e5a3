import OxlensSfu.Lib.Maps

/-!
# Key expressions and messages of the mesh

What the routers and clients of the mesh say to each other (`crates/oxmesh/src/wire.rs`), and the
key expressions in it (`keyexpr.rs`): chunks between slashes, `*` for one of them and `**` for any
number.
-/

namespace OxlensSfu.Mesh

/-! ## Key expressions -/

def concrete (e : String) : Bool := !e.toList.contains '*'

/-- The first chunk, and what follows its slash. -/
def nextChunk (s : List Char) : List Char × List Char :=
  (s.takeWhile (· ≠ '/'), (s.dropWhile (· ≠ '/')).tail)

/-- The loop of `intersects`. The equality is tested when the function is called, not when the loop
goes round. -/
def intersectsLoop : Nat → Bool → List Char → List Char → Bool
  | 0, _, _, _ => false
  | n + 1, called, a, b =>
    if called ∧ a = b then true
    else if a = [] ∨ b = [] then (a = [] ∨ a = ['*', '*']) && (b = [] ∨ b = ['*', '*'])
    else
      let (c₁, r₁) := nextChunk a
      let (c₂, r₂) := nextChunk b
      if c₁ = ['*', '*'] then
        r₁ = [] || intersectsLoop n true a r₂ || intersectsLoop n true r₁ b
      else if c₂ = ['*', '*'] then
        r₂ = [] || intersectsLoop n true r₁ b || intersectsLoop n true a r₂
      else if c₁ = c₂ ∨ c₁ = ['*'] ∨ c₂ = ['*'] then intersectsLoop n false r₁ r₂
      else false

/-- Each round takes a chunk away, so there are no more rounds than characters. -/
def intersects (a b : String) : Bool :=
  intersectsLoop (a.toList.length + b.toList.length + 1) true a.toList b.toList

/-! ## Messages -/

def proto : Nat := 1

inductive Role where
  | router
  | client
  deriving DecidableEq, Repr

inductive DeclKind where
  | token
  | sub
  | qabl
  deriving DecidableEq, Repr

inductive TokenEvtKind where
  | put
  | delete
  | batchEnd
  deriving DecidableEq, Repr

inductive CloseReason where
  | shutdown
  | expired
  | fenced
  | replaced
  | refused
  | duplicate
  | protocol
  | io
  deriving DecidableEq, Repr

/-- The other end is told of the reason. -/
def CloseReason.spoken : CloseReason → Bool
  | .shutdown | .replaced | .refused | .duplicate | .protocol => true
  | .expired | .fenced | .io => false

/-- The first message of either end. `adv` is the address of the sender as its `listen` gives it,
seen from the receiver. -/
structure Hello where
  proto : Nat := Mesh.proto
  role : Role
  node : String
  boot : Nat
  sno : Nat
  adv : Option String := none
  peers : List (String × String) := []
  deriving DecidableEq, Repr

abbrev Payload := List UInt8

inductive Msg where
  | hello (h : Hello)
  | close (reason : CloseReason)
  | keepAlive
  | declare (kind : DeclKind) (id : Nat) (expr : String)
  | undeclare (kind : DeclKind) (id : Nat)
  | declareDone
  | tokenSub (id : Nat) (expr : String) (history : Bool)
  | tokenUnsub (id : Nat)
  | tokenEvt (id : Nat) (kind : TokenEvtKind) (key : String)
  | peers (list : List (String × String))
  | put (key : String) (payload : Payload)
  | request (qid : Nat) (expr : String) (payload : Payload) (timeoutMs : Nat)
  | reply (qid : Nat) (key : String) (ok : Bool) (payload : Payload)
  | final (qid : Nat)
  deriving DecidableEq, Repr

inductive Lane where
  | control
  | declare
  | request
  | data
  deriving DecidableEq, Repr

def Msg.lane : Msg → Lane
  | .hello _ | .close _ | .keepAlive => .control
  | .declare _ _ _ | .undeclare _ _ | .declareDone | .tokenSub _ _ _ | .tokenUnsub _
  | .tokenEvt _ _ _ | .peers _ => .declare
  | .request _ _ _ _ | .reply _ _ _ _ | .final _ => .request
  | .put _ _ => .data

/-- The lane takes any number of messages. -/
def Lane.unbounded : Lane → Bool
  | .control | .declare => true
  | .request | .data => false

end OxlensSfu.Mesh
