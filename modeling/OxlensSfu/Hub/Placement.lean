import Mathlib.Tactic
import Mathlib.Data.List.MinMax
import Mathlib.Data.Prod.Lex
import Mathlib.Data.String.Basic
import OxlensSfu.Hub.View

/-!
# Where a room is placed

A room goes to the node with the highest score for it (`crates/oxhubd/src/bus/placement.rs`), where
the score is a hash of the two names and the smaller name wins a tie. `Bus::place` asks for the
node among the candidates a hub sees.

The loop of `pick` takes the first greatest element of its list by the rank of a name, its score
and then the name downwards. No two names have one rank, so there is no other greatest element, and
what is picked is told by the set of the names (`pick_eq_some_iff`).

**Theorem (`placement_stable`).** The order of the names and how often each is there do not matter,
one of them is picked, a name more moves the room only to itself, and the room stays when another
name goes.
-/

namespace OxlensSfu.Hub

/-! ## The score -/

def fnv1a64 (bytes : List UInt8) : UInt64 :=
  bytes.foldl (fun h b => (h ^^^ b.toUInt64) * 0x00000100000001b3) 0xcbf29ce484222325

def splitmixFinish (z : UInt64) : UInt64 :=
  let z := z + 0x9e3779b97f4a7c15
  let z := z ^^^ z >>> 30
  let z := z * 0xbf58476d1ce4e5b9
  let z := z ^^^ z >>> 27
  let z := z * 0x94d049bb133111eb
  z ^^^ z >>> 31

def score (node room : String) : UInt64 :=
  splitmixFinish (fnv1a64 (node.toUTF8.toList ++ 0 :: room.toUTF8.toList))

example : fnv1a64 [0x61] = 0xaf63dc4c8601ec8c := by decide

/-! ## The choice -/

/-- The best so far, and a node that comes after it. UTF-8 keeps the order of strings. -/
def keepBest (room : String) (best : Option (UInt64 × String)) (n : String) :
    Option (UInt64 × String) :=
  let s := score n room
  match best with
  | none => some (s, n)
  | some (bs, bn) => if s > bs ∨ (s = bs ∧ n < bn) then some (s, n) else some (bs, bn)

def pick (nodes : List String) (room : String) : Option String :=
  (nodes.foldl (keepBest room) none).map (·.2)

/-- What the names are compared by. -/
def rank (room n : String) : ℕ ×ₗ Stringᵒᵈ := toLex ((score n room).toNat, OrderDual.toDual n)

theorem rank_injective (room : String) : Function.Injective (rank room) := by
  intro m n h
  have hpair := toLex_inj.mp h
  exact OrderDual.toDual_inj.mp (congrArg Prod.snd hpair)

theorem rank_lt_iff (room m n : String) :
    rank room m < rank room n ↔
      score n room > score m room ∨ (score n room = score m room ∧ n < m) := by
  rw [rank, rank, Prod.Lex.toLex_lt_toLex, OrderDual.toDual_lt_toDual, gt_iff_lt,
    UInt64.lt_iff_toNat_lt, UInt64.toNat_inj, eq_comm (a := score m room)]

/-- The loop keeps the first name of the highest rank, with its score. -/
theorem foldl_keepBest (room : String) (nodes : List String) :
    ∀ best : Option String, nodes.foldl (keepBest room) (best.map fun n => (score n room, n)) =
      (nodes.foldl (List.argAux fun b c => rank room c < rank room b) best).map
        fun n => (score n room, n) := by
  induction nodes with
  | nil => exact fun _ => rfl
  | cons n ns ih =>
    intro best
    rw [List.foldl_cons, List.foldl_cons, ← ih]
    congr 1
    cases best with
    | none => rfl
    | some b =>
      simp only [keepBest, List.argAux, Option.map_some, rank_lt_iff]
      split_ifs <;> rfl

theorem pick_eq_argmax (nodes : List String) (room : String) :
    pick nodes room = nodes.argmax (rank room) := by
  have hloop := foldl_keepBest room nodes none
  rw [Option.map_none] at hloop
  rw [pick, hloop, List.argmax, Option.map_map]
  exact Option.map_id'

/-- What is picked is of a higher rank than every other name. -/
theorem pick_eq_some_iff {nodes : List String} {room n : String} :
    pick nodes room = some n ↔ n ∈ nodes ∧ ∀ m ∈ nodes, rank room m ≤ rank room n := by
  rw [pick_eq_argmax, List.argmax_eq_some_iff]
  refine ⟨fun h => ⟨h.1, h.2.1⟩, fun h => ⟨h.1, h.2, fun m hm hle => ?_⟩⟩
  have hsame : m = n := rank_injective room (le_antisymm (h.2 m hm) hle)
  rw [hsame]

theorem pick_eq_none_iff {nodes : List String} {room : String} :
    pick nodes room = none ↔ nodes = [] := by
  rw [pick_eq_argmax, List.argmax_eq_none]

theorem pick_congr {a b : List String} (h : ∀ n, n ∈ a ↔ n ∈ b) (room : String) :
    pick a room = pick b room := by
  ext n
  rw [pick_eq_some_iff, pick_eq_some_iff, h n]
  simp only [h]

theorem pick_cons (n : String) (nodes : List String) (room : String) :
    pick (n :: nodes) room = some n ∨ pick (n :: nodes) room = pick nodes room := by
  cases hpick : pick (n :: nodes) room with
  | none => exact absurd (pick_eq_none_iff.mp hpick) (List.cons_ne_nil n nodes)
  | some m =>
    obtain ⟨hm, hbest⟩ := pick_eq_some_iff.mp hpick
    rcases List.mem_cons.mp hm with rfl | hm
    · exact .inl rfl
    · right
      exact (pick_eq_some_iff.mpr ⟨hm, fun k hk => hbest k (List.mem_cons_of_mem n hk)⟩).symm

theorem pick_without {n : String} {nodes : List String} {room : String}
    (h : pick nodes room ≠ some n) : pick (nodes.filter (· ≠ n)) room = pick nodes room := by
  cases hpick : pick nodes room with
  | none =>
    rw [pick_eq_none_iff] at hpick
    subst hpick
    rfl
  | some m =>
    obtain ⟨hm, hbest⟩ := pick_eq_some_iff.mp hpick
    have hother : m ≠ n := by
      rintro rfl
      exact h hpick
    rw [pick_eq_some_iff]
    refine ⟨List.mem_filter.mpr ⟨hm, decide_eq_true hother⟩, fun k hk => ?_⟩
    exact hbest k (List.mem_filter.mp hk).1

/-! ## The candidates of a hub -/

namespace View

/-- A node counts while it is live and for a while after. -/
def counts (v : View) (now : Nat) (n : NodeSeen) : Bool :=
  n.live || n.goneAt.any fun g => now < g + v.graceMs

def candidates (v : View) (now : Nat) : List String :=
  v.nodes.entries.foldl (fun c e => if v.counts now e.2 then setInsert e.1 c else c)
    (setInsert v.selfNode [])

end View

/-- `Bus::place`: the node, and whether it is live. -/
def place (v : View) (now : Nat) (room : String) : Option (String × Bool) :=
  (pick (v.candidates now) room).map fun n => (n, v.nodeLive n)

/-- **The placement is stable.** -/
theorem placement_stable (room : String) :
    (∀ a b : List String, (∀ n, n ∈ a ↔ n ∈ b) → pick a room = pick b room) ∧
      (∀ nodes, pick nodes room = none ↔ nodes = []) ∧
      (∀ nodes n, pick nodes room = some n → n ∈ nodes) ∧
      (∀ nodes n, pick (n :: nodes) room = some n ∨ pick (n :: nodes) room = pick nodes room) ∧
      (∀ nodes n, pick nodes room ≠ some n →
        pick (nodes.filter (· ≠ n)) room = pick nodes room) ∧
      ∀ (v w : View) (s t : Nat), (∀ n, n ∈ v.candidates s ↔ n ∈ w.candidates t) →
        (place v s room).map (·.1) = (place w t room).map (·.1) := by
  refine ⟨fun a b h => pick_congr h room, fun nodes => pick_eq_none_iff, ?_, ?_, ?_, ?_⟩
  · intro nodes n h
    exact (pick_eq_some_iff.mp h).1
  · exact fun nodes n => pick_cons n nodes room
  · exact fun nodes n h => pick_without h
  · intro v w s t h
    rw [place, place, Option.map_map, Option.map_map, pick_congr h room]
    rfl

theorem placement_stable_again : pick ["b", "a", "b"] "r" = pick ["a", "b"] "r" :=
  (placement_stable "r").1 ["b", "a", "b"] ["a", "b"] fun n => by simp [or_comm, or_left_comm]

end OxlensSfu.Hub
