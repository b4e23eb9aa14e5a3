import OxlensSfu.Floor.Delivery
import OxlensSfu.Mesh.Inclusion

/-!
# The key space of the bus

A token on the bus has no value, so all there is to tell is written into its key
(`crates/common/src/keyspace.rs`). The hubs and the media servers write keys with the builders of
`Keys`, watch them through expressions with wildcards and read them with `parse`. What stands
between the slashes is checked by `valid_piece` where it enters the system.

* `parse_exact`: `parse` takes exactly the keys that the builders write, and gives back what went in.
  The one other form that it takes is a question to a node with nothing behind the name.
* `keys_valid`: of checked pieces the builders make keys and expressions that the mesh accepts.
* `watch_exact`: an expression finds the keys that it is for and no others, and none of another
  deployment.
-/

namespace OxlensSfu.Bus

open OxlensSfu.Flr (validPiece)
open Mesh (valid concrete intersects render pattern piece Stands)
open Glob

/-! ## Keys -/

structure Keys where
  ns : String
  deriving DecidableEq, Repr

inductive Parsed where
  | node (node inst : String)
  | room (room node inst : String)
  | sess (user node sid : String)
  | evRoom (room : String)
  | evUser (user : String)
  | evNode (node : String)
  | query (node path : String)
  deriving DecidableEq, Repr

namespace Keys

def base (k : Keys) : String := "ox/" ++ k.ns ++ "/int"

def nodeToken (k : Keys) (node inst : String) : String := k.base ++ "/node/" ++ node ++ "/" ++ inst

def nodeAll (k : Keys) : String := k.base ++ "/node/**"

def roomToken (k : Keys) (room node inst : String) : String :=
  k.base ++ "/room/" ++ room ++ "/" ++ node ++ "/" ++ inst

def roomWhere (k : Keys) (room : String) : String := k.base ++ "/room/" ++ room ++ "/**"

def roomAll (k : Keys) : String := k.base ++ "/room/**"

def roomsOfNode (k : Keys) (node : String) : String := k.base ++ "/room/*/" ++ node ++ "/**"

def sessToken (k : Keys) (user node sid : String) : String :=
  k.base ++ "/sess/" ++ user ++ "/" ++ node ++ "/" ++ sid

def sessAll (k : Keys) : String := k.base ++ "/sess/**"

def evRoom (k : Keys) (room : String) : String := k.base ++ "/ev/room/" ++ room

def evRoomAll (k : Keys) : String := k.base ++ "/ev/room/*"

def evUser (k : Keys) (user : String) : String := k.base ++ "/ev/user/" ++ user

def evUserAll (k : Keys) : String := k.base ++ "/ev/user/*"

def evNode (k : Keys) (node : String) : String := k.base ++ "/ev/node/" ++ node

def qNode (k : Keys) (node rest : String) : String := k.base ++ "/q/node/" ++ node ++ "/" ++ rest

def qNodeServe (k : Keys) (node : String) : String := k.base ++ "/q/node/" ++ node ++ "/**"

def qAllNodes (k : Keys) (rest : String) : String := k.base ++ "/q/node/*/" ++ rest

end Keys

/-- `split('/')`. -/
def parts (s : String) : List String := (s.toList.splitOn '/').map String.ofList

def stripPrefix (pre s : String) : Option String :=
  if pre.toList.isPrefixOf s.toList then some (String.ofList (s.toList.drop pre.toList.length))
  else none

/-- The `match` of `parse`. -/
def ofParts : List String → Option Parsed
  | ["node", node, inst] => some (.node node inst)
  | ["room", room, node, inst] => some (.room room node inst)
  | ["sess", user, node, sid] => some (.sess user node sid)
  | ["ev", "room", room] => some (.evRoom room)
  | ["ev", "user", user] => some (.evUser user)
  | ["ev", "node", node] => some (.evNode node)
  | "q" :: "node" :: node :: rest => some (.query node ("/".intercalate rest))
  | _ => none

def Keys.parse (k : Keys) (key : String) : Option Parsed :=
  (stripPrefix (k.base ++ "/") key).bind fun rest => ofParts (parts rest)

namespace Parsed

/-- The builder for what is to be told. -/
def key (k : Keys) : Parsed → String
  | node n inst => k.nodeToken n inst
  | room r n inst => k.roomToken r n inst
  | sess u n sid => k.sessToken u n sid
  | evRoom r => k.evRoom r
  | evUser u => k.evUser u
  | evNode n => k.evNode n
  | query n path => k.qNode n path

/-- The words that say what a key is about. -/
def words : Parsed → List String
  | node _ _ => ["node"]
  | room _ _ _ => ["room"]
  | sess _ _ _ => ["sess"]
  | evRoom _ => ["ev", "room"]
  | evUser _ => ["ev", "user"]
  | evNode _ => ["ev", "node"]
  | query _ _ => ["q", "node"]

/-- The pieces that were put in. The path of a question may be several. -/
def pieces : Parsed → List String
  | node n inst => [n, inst]
  | room r n inst => [r, n, inst]
  | sess u n sid => [u, n, sid]
  | evRoom r => [r]
  | evUser u => [u]
  | evNode n => [n]
  | query n path => n :: parts path

/-- What stands behind the base, piece by piece. -/
def tail (p : Parsed) : List String := p.words ++ p.pieces

end Parsed

/-! ## Splitting and joining -/

theorem intercalate_parts (s : String) : "/".intercalate (parts s) = s := by
  have hmap : ((s.toList.splitOn '/').map String.ofList).map String.toList =
      s.toList.splitOn '/' := by simp [Function.comp_def]
  rw [← String.toList_inj, String.toList_intercalate, parts, hmap]
  exact List.intercalate_splitOn '/'

theorem parts_intercalate {cs : List String} (hslash : ∀ c ∈ cs, '/' ∉ c.toList) (hne : cs ≠ []) :
    parts ("/".intercalate cs) = cs := by
  rw [parts, String.toList_intercalate]
  have hsplit : (List.intercalate ['/'] (cs.map String.toList)).splitOn '/' =
      cs.map String.toList :=
    List.splitOn_intercalate '/' (by simpa using hslash) (by simpa using hne)
  have hsep : "/".toList = ['/'] := rfl
  rw [hsep, hsplit, List.map_map]
  simp [Function.comp_def]

theorem no_slash_parts (s : String) : ∀ c ∈ parts s, '/' ∉ c.toList := by
  intro c hc
  obtain ⟨d, hd, rfl⟩ := List.mem_map.1 hc
  rw [String.toList_ofList]
  exact Mesh.no_slash_splitOn _ d hd

theorem parts_ne_nil (s : String) : parts s ≠ [] := by
  rw [parts, Ne, List.map_eq_nil_iff]
  exact List.splitOn_ne_nil _ _

theorem stripPrefix_eq_some {pre s r : String} : stripPrefix pre s = some r ↔ s = pre ++ r := by
  rw [stripPrefix]
  split_ifs with h
  · obtain ⟨t, ht⟩ := List.isPrefixOf_iff_prefix.1 h
    rw [Option.some.injEq, ← String.toList_inj, ← String.toList_inj, String.toList_append,
      String.toList_ofList, ← ht, List.drop_left]
    exact ⟨fun e => by rw [e], fun e => List.append_cancel_left e⟩
  · refine ⟨fun e => by simp at e, fun e => absurd ?_ h⟩
    rw [e, String.toList_append]
    exact List.isPrefixOf_iff_prefix.2 (List.prefix_append _ _)

theorem tail_ne_nil (p : Parsed) : p.tail ≠ [] := by
  cases p <;> simp [Parsed.tail, Parsed.words]

theorem key_eq (k : Keys) (p : Parsed) : p.key k = k.base ++ "/" ++ "/".intercalate p.tail := by
  rw [← String.toList_inj]
  cases p with
  | query n path =>
    have htail : (Parsed.query n path).tail = ["q", "node", n] ++ parts path := rfl
    rw [htail, String.intercalate_append_of_ne_nil (by simp) (parts_ne_nil path),
      intercalate_parts]
    simp [Parsed.key, Keys.qNode, String.intercalate_cons_cons, String.toList_append]
  | node n inst =>
    simp [Parsed.key, Keys.nodeToken, Parsed.tail, Parsed.words, Parsed.pieces,
      String.intercalate_cons_cons,
      String.toList_append]
  | room r n inst =>
    simp [Parsed.key, Keys.roomToken, Parsed.tail, Parsed.words, Parsed.pieces,
      String.intercalate_cons_cons,
      String.toList_append]
  | sess u n sid =>
    simp [Parsed.key, Keys.sessToken, Parsed.tail, Parsed.words, Parsed.pieces,
      String.intercalate_cons_cons,
      String.toList_append]
  | evRoom r =>
    simp [Parsed.key, Keys.evRoom, Parsed.tail, Parsed.words, Parsed.pieces,
      String.intercalate_cons_cons, String.toList_append]
  | evUser u =>
    simp [Parsed.key, Keys.evUser, Parsed.tail, Parsed.words, Parsed.pieces,
      String.intercalate_cons_cons, String.toList_append]
  | evNode n =>
    simp [Parsed.key, Keys.evNode, Parsed.tail, Parsed.words, Parsed.pieces,
      String.intercalate_cons_cons, String.toList_append]

/-! ## Reading -/

theorem ofParts_tail (p : Parsed) : ofParts p.tail = some p := by
  cases p with
  | query n path => simp [Parsed.tail, Parsed.words, Parsed.pieces, ofParts, intercalate_parts]
  | node _ _ => rfl
  | room _ _ _ => rfl
  | sess _ _ _ => rfl
  | evRoom _ => rfl
  | evUser _ => rfl
  | evNode _ => rfl

/-- What is read of pieces is what they tell. A question without a path tells an empty one. -/
theorem ofParts_eq_some {cs : List String} {p : Parsed} (hslash : ∀ c ∈ cs, '/' ∉ c.toList) :
    ofParts cs = some p ↔ cs = p.tail ∨ ∃ n, cs = ["q", "node", n] ∧ p = .query n "" := by
  constructor
  · intro h
    unfold ofParts at h
    split at h
    · exact .inl (Option.some.inj h ▸ rfl)
    · exact .inl (Option.some.inj h ▸ rfl)
    · exact .inl (Option.some.inj h ▸ rfl)
    · exact .inl (Option.some.inj h ▸ rfl)
    · exact .inl (Option.some.inj h ▸ rfl)
    · exact .inl (Option.some.inj h ▸ rfl)
    next n rest =>
      obtain rfl := Option.some.inj h
      by_cases hne : rest = []
      · subst hne
        exact .inr ⟨n, rfl, by rw [String.intercalate_nil]⟩
      · refine .inl ?_
        rw [Parsed.tail, Parsed.pieces, parts_intercalate (fun c hc => hslash c (by simp [hc])) hne]
        rfl
    · cases h
  · rintro (rfl | ⟨n, rfl, rfl⟩)
    · exact ofParts_tail p
    · simp [ofParts, String.intercalate_nil]

/-- No piece has a slash in it; the path of a question may. -/
def Parsed.Plain (p : Parsed) : Prop := ∀ c ∈ p.pieces, '/' ∉ c.toList

theorem plain_iff (p : Parsed) : p.Plain ↔ ∀ c ∈ p.tail, '/' ∉ c.toList := by
  cases p <;> simp [Parsed.Plain, Parsed.words, Parsed.pieces, Parsed.tail]

/-- **`parse` reads exactly what the builders write**, and a question with nothing behind the name
of the node. -/
theorem parse_exact (k : Keys) (key : String) (p : Parsed) : k.parse key = some p ↔
    p.Plain ∧ (key = p.key k ∨ ∃ n, p = .query n "" ∧ key = k.base ++ "/q/node/" ++ n) := by
  rw [plain_iff, Keys.parse, Option.bind_eq_some_iff]
  constructor
  · rintro ⟨rest, hstrip, h⟩
    have hkey := stripPrefix_eq_some.1 hstrip
    have hslash := no_slash_parts rest
    rcases (ofParts_eq_some hslash).1 h with htail | ⟨n, hq, rfl⟩
    · rw [htail] at hslash
      refine ⟨hslash, .inl ?_⟩
      rw [key_eq, hkey, ← htail, intercalate_parts]
    · rw [hq] at hslash
      refine ⟨?_, .inr ⟨n, rfl, ?_⟩⟩
      · have hn := hslash n (by simp)
        simp [Parsed.tail, Parsed.words, Parsed.pieces, parts, hn, List.splitOn_nil]
      · rw [hkey, ← intercalate_parts rest, hq, ← String.toList_inj]
        simp [String.intercalate_cons_cons, String.toList_append]
  · rintro ⟨hplain, rfl | ⟨n, rfl, rfl⟩⟩
    · refine ⟨"/".intercalate p.tail, stripPrefix_eq_some.2 (key_eq k p), ?_⟩
      rw [parts_intercalate hplain (tail_ne_nil p)]
      exact ofParts_tail p
    · have hn : '/' ∉ n.toList := hplain n (by simp [Parsed.tail, Parsed.pieces])
      refine ⟨"/".intercalate ["q", "node", n], stripPrefix_eq_some.2 ?_, ?_⟩
      · rw [← String.toList_inj]
        simp [String.intercalate_cons_cons, String.toList_append]
      · rw [parts_intercalate (by simp [hn]) (by simp)]
        simp [ofParts, String.intercalate_nil]

/-! ## Watching -/

/-- What an expression of `Keys` is for. A key is an expression that is for itself. -/
inductive Watch where
  | nodeAll
  | roomWhere (room : String)
  | roomAll
  | roomsOfNode (node : String)
  | sessAll
  | evRoomAll
  | evUserAll
  | qNodeServe (node : String)
  | qAllNodes (rest : String)
  | key (p : Parsed)
  deriving DecidableEq, Repr

namespace Watch

def expr (k : Keys) : Watch → String
  | nodeAll => k.nodeAll
  | roomWhere r => k.roomWhere r
  | roomAll => k.roomAll
  | roomsOfNode n => k.roomsOfNode n
  | sessAll => k.sessAll
  | evRoomAll => k.evRoomAll
  | evUserAll => k.evUserAll
  | qNodeServe n => k.qNodeServe n
  | qAllNodes rest => k.qAllNodes rest
  | key p => p.key k

def tail : Watch → List String
  | nodeAll => ["node", "**"]
  | roomWhere r => ["room", r, "**"]
  | roomAll => ["room", "**"]
  | roomsOfNode n => ["room", "*", n, "**"]
  | sessAll => ["sess", "**"]
  | evRoomAll => ["ev", "room", "*"]
  | evUserAll => ["ev", "user", "*"]
  | qNodeServe n => ["q", "node", n, "**"]
  | qAllNodes rest => ["q", "node", "*"] ++ parts rest
  | key p => p.tail

def pieces : Watch → List String
  | nodeAll | roomAll | sessAll | evRoomAll | evUserAll => []
  | roomWhere r => [r]
  | roomsOfNode n => [n]
  | qNodeServe n => [n]
  | qAllNodes rest => parts rest
  | key p => p.pieces

/-- What the expression is to find. -/
def Finds : Watch → Parsed → Prop
  | nodeAll, .node _ _ => True
  | roomWhere r, .room r' _ _ => r = r'
  | roomAll, .room _ _ _ => True
  | roomsOfNode n, .room _ n' _ => n = n'
  | sessAll, .sess _ _ _ => True
  | evRoomAll, .evRoom _ => True
  | evUserAll, .evUser _ => True
  | qNodeServe n, .query n' _ => n = n'
  | qAllNodes rest, .query _ path => rest = path
  | key p, q => p = q
  | _, _ => False

end Watch

/-- The pieces of a key, or of an expression, behind `ox`. -/
def path (k : Keys) (tail : List String) : List String := ["ox", k.ns, "int"] ++ tail

theorem key_path (k : Keys) (p : Parsed) : p.key k = "/".intercalate (path k p.tail) := by
  rw [key_eq, path, String.intercalate_append_of_ne_nil (by simp) (tail_ne_nil p),
    ← String.toList_inj]
  simp [Keys.base, String.intercalate_cons_cons, String.toList_append]

theorem expr_path (k : Keys) (w : Watch) : w.expr k = "/".intercalate (path k w.tail) := by
  cases w with
  | key p => exact key_path k p
  | qAllNodes rest =>
    rw [path, Watch.tail, ← List.append_assoc,
      String.intercalate_append_of_ne_nil (by simp) (parts_ne_nil rest), intercalate_parts,
      ← String.toList_inj]
    simp [Watch.expr, Keys.qAllNodes, Keys.base, String.intercalate_cons_cons,
      String.toList_append]
  | nodeAll | roomAll | sessAll | evRoomAll | evUserAll =>
    rw [← String.toList_inj]
    simp [Watch.expr, Watch.tail, path, Keys.base, Keys.nodeAll, Keys.roomAll, Keys.sessAll,
      Keys.evRoomAll, Keys.evUserAll, String.intercalate_cons_cons, String.toList_append]
  | roomWhere x | roomsOfNode x | qNodeServe x =>
    rw [← String.toList_inj]
    simp [Watch.expr, Watch.tail, path, Keys.base, Keys.roomWhere, Keys.roomsOfNode,
      Keys.qNodeServe, String.intercalate_cons_cons, String.toList_append]

/-- What `valid_piece` makes sure of. -/
theorem validPiece_spec {s : String} (h : validPiece s = true) :
    s.toList ≠ [] ∧ '/' ∉ s.toList ∧ '*' ∉ s.toList ∧ ∀ c ∈ s.toList, c ∉ Mesh.forbidden := by
  rw [validPiece, Bool.and_eq_true, Bool.not_eq_true', Bool.not_eq_true', List.any_eq_false] at h
  obtain ⟨hne, hno⟩ := h
  have hmem : ∀ c ∈ s.toList, c ∉ Flr.forbidden := by
    intro c hc hf
    exact hno c hc (by simpa using hf)
  refine ⟨?_, fun hc => hmem _ hc (by decide), fun hc => hmem _ hc (by decide), ?_⟩
  · intro he
    rw [String.toList_eq_nil_iff] at he
    simp [he] at hne
  · intro c hc hf
    refine hmem c hc ?_
    revert hf
    simp only [Mesh.forbidden, Flr.forbidden, List.mem_cons, List.not_mem_nil, or_false]
    rintro (rfl | rfl | rfl) <;> decide

/-- The pieces of the deployment and of what is put in are checked. -/
def Checked (k : Keys) (pieces : List String) : Prop :=
  validPiece k.ns = true ∧ ∀ s ∈ pieces, validPiece s = true

instance (k : Keys) (pieces : List String) : Decidable (Checked k pieces) :=
  inferInstanceAs (Decidable (_ ∧ _))

/-! ## The mesh accepts them -/

/-- A piece of an expression: one that was checked, or a wildcard. -/
def Chunk (s : String) : Prop := validPiece s = true ∨ s = "*" ∨ s = "**"

/-- A double wildcard is the last piece, if there is one. -/
def Closed (cs : List String) : Prop := (∀ s ∈ cs, Chunk s) ∧ ∀ s ∈ cs.dropLast, s ≠ "**"

theorem validLoop_pieces {cs : List String} (h : Closed cs) :
    Mesh.validLoop false (cs.map String.toList) = true := by
  induction cs with
  | nil => rfl
  | cons s cs ih =>
    have hs := h.1 s List.mem_cons_self
    have hgood : ¬ (s.toList = [] ∨ '*' ∈ s.toList ∧ s.toList ≠ ['*'] ∧ s.toList ≠ ['*', '*']) := by
      rcases hs with hs | rfl | rfl
      · obtain ⟨hne, -, hstar, -⟩ := validPiece_spec hs
        simp [hne, hstar]
      · decide
      · decide
    rw [List.map_cons, Mesh.validLoop, if_neg hgood]
    cases cs with
    | nil => simp [Mesh.validLoop]
    | cons t cs =>
      have hns : s.toList ≠ ['*', '*'] := by
        intro he
        exact h.2 s (by simp) (String.toList_inj.1 he)
      have hrest : Closed (t :: cs) :=
        ⟨fun x hx => h.1 x (List.mem_cons_of_mem s hx),
          fun x hx => h.2 x (by rw [List.dropLast_cons_cons]; exact List.mem_cons_of_mem s hx)⟩
      simpa [hns] using ih hrest

theorem chunk_chars {s : String} (h : Chunk s) :
    '/' ∉ s.toList ∧ ∀ c ∈ s.toList, c ∉ Mesh.forbidden := by
  rcases h with h | rfl | rfl
  · obtain ⟨-, hslash, -, hforbidden⟩ := validPiece_spec h
    exact ⟨hslash, hforbidden⟩
  · simp [Mesh.forbidden]
  · simp [Mesh.forbidden]

theorem mem_intercalate {cs : List String} {c : Char} (h : c ∈ ("/".intercalate cs).toList) :
    c = '/' ∨ ∃ s ∈ cs, c ∈ s.toList := by
  induction cs with
  | nil => simp [String.intercalate_nil] at h
  | cons s cs ih =>
    by_cases hcs : cs = []
    · subst hcs
      rw [String.intercalate_singleton] at h
      exact .inr ⟨s, List.mem_cons_self, h⟩
    · rw [String.intercalate_cons_of_ne_nil hcs, String.toList_append, String.toList_append,
        List.mem_append, List.mem_append] at h
      rcases h with (h | h) | h
      · exact .inr ⟨s, List.mem_cons_self, h⟩
      · exact .inl (List.mem_singleton.1 h)
      · rcases ih h with hc | ⟨t, ht, hc⟩
        · exact .inl hc
        · exact .inr ⟨t, List.mem_cons_of_mem s ht, hc⟩

theorem valid_of_closed {cs : List String} (hcs : 1 < cs.length) (h : Closed cs) :
    valid ("/".intercalate cs) = true := by
  have hne : cs ≠ [] := List.ne_nil_of_length_pos (Nat.zero_lt_of_lt hcs)
  have hslash : ∀ s ∈ cs, '/' ∉ s.toList := fun s hs => (chunk_chars (h.1 s hs)).1
  have hsplit : ("/".intercalate cs).toList.splitOn '/' = cs.map String.toList := by
    rw [String.toList_intercalate]
    exact List.splitOn_intercalate '/' (by simpa using hslash) (by simpa using hne)
  have hchars : ∀ c ∈ ("/".intercalate cs).toList, c ∉ Mesh.forbidden := by
    intro c hc
    rcases mem_intercalate hc with rfl | ⟨s, hs, hc⟩
    · decide
    · exact (chunk_chars (h.1 s hs)).2 c hc
  have hnil : ("/".intercalate cs).toList ≠ [] := by
    intro he
    rw [he, List.splitOn_nil] at hsplit
    have hlen := congrArg List.length hsplit
    rw [List.length_map, List.length_singleton] at hlen
    omega
  have hany : ¬ (("/".intercalate cs).toList.any (Mesh.forbidden.contains ·)) = true := by
    rw [List.any_eq_true]
    rintro ⟨c, hc, hf⟩
    exact hchars c hc (by simpa using hf)
  rw [valid, if_neg (by rw [not_or]; exact ⟨hnil, hany⟩), hsplit]
  exact validLoop_pieces h

theorem validPiece_ne {s : String} (h : validPiece s = true) : s ≠ "*" ∧ s ≠ "**" := by
  obtain ⟨-, -, hstar, -⟩ := validPiece_spec h
  constructor
  · rintro rfl
    exact hstar (by decide)
  · rintro rfl
    exact hstar (by decide)

/-- A piece that is not a double wildcard. -/
def Single (s : String) : Prop := validPiece s = true ∨ s = "*"

theorem Single.chunk {s : String} (h : Single s) : Chunk s ∧ s ≠ "**" := by
  rcases h with h | rfl
  · exact ⟨.inl h, (validPiece_ne h).2⟩
  · exact ⟨.inr (.inl rfl), by decide⟩

theorem closed_singles {cs : List String} (h : ∀ s ∈ cs, Single s) : Closed cs :=
  ⟨fun s hs => (h s hs).chunk.1, fun s hs => (h s (List.mem_of_mem_dropLast hs)).chunk.2⟩

theorem closed_concat {cs : List String} (h : ∀ s ∈ cs, Single s) : Closed (cs ++ ["**"]) := by
  refine ⟨fun s hs => ?_, fun s hs => ?_⟩
  · rcases List.mem_append.1 hs with hs | hs
    · exact (h s hs).chunk.1
    · exact .inr (.inr (List.mem_singleton.1 hs))
  · rw [List.dropLast_concat] at hs
    exact (h s hs).chunk.2

theorem words_checked (p : Parsed) : ∀ s ∈ p.words, validPiece s = true := by
  cases p <;> simp only [Parsed.words] <;> decide

/-- The pieces of a key are checked, those that the builders add too. -/
theorem path_checked {k : Keys} {p : Parsed} (h : Checked k p.pieces) :
    ∀ s ∈ path k p.tail, validPiece s = true := by
  intro s hs
  simp only [path, Parsed.tail, List.cons_append, List.nil_append, List.mem_cons,
    List.mem_append] at hs
  rcases hs with rfl | rfl | rfl | hs | hs
  · decide
  · exact h.1
  · decide
  · exact words_checked p s hs
  · exact h.2 s hs

theorem watch_closed {k : Keys} {w : Watch} (h : Checked k w.pieces) : Closed (path k w.tail) := by
  have hword : ∀ s ∈ ["ox", "int", "node", "room", "sess", "ev", "user", "q"], Single s :=
    fun s hs => .inl (by revert s; decide)
  have hall : ∀ cs, (∀ s ∈ cs, Single s) → ∀ s ∈ "ox" :: k.ns :: "int" :: cs, Single s := by
    intro cs hcs
    simp only [List.forall_mem_cons]
    exact ⟨hword _ (by decide), .inl h.1, hword _ (by decide), hcs⟩
  have hnode : Single "node" := hword _ (by decide)
  have hroom : Single "room" := hword _ (by decide)
  have hev : Single "ev" := hword _ (by decide)
  have hq : Single "q" := hword _ (by decide)
  have hstar : Single "*" := .inr rfl
  have hpiece : ∀ s ∈ w.pieces, Single s := fun s hs => .inl (h.2 s hs)
  cases w with
  | nodeAll =>
    have hc := closed_concat (hall ["node"] (by simp [hnode]))
    exact hc
  | roomWhere r =>
    have hr : Single r := hpiece r List.mem_cons_self
    have hc := closed_concat (hall ["room", r] (by simp [hroom, hr]))
    exact hc
  | roomAll =>
    have hc := closed_concat (hall ["room"] (by simp [hroom]))
    exact hc
  | roomsOfNode n =>
    have hn : Single n := hpiece n List.mem_cons_self
    have hc := closed_concat (hall ["room", "*", n] (by simp [hroom, hstar, hn]))
    exact hc
  | sessAll =>
    have hc := closed_concat (hall ["sess"] (by simpa using hword "sess" (by decide)))
    exact hc
  | evRoomAll => exact closed_singles (hall ["ev", "room", "*"] (by simp [hev, hroom, hstar]))
  | evUserAll =>
    have huser : Single "user" := hword _ (by decide)
    exact closed_singles (hall ["ev", "user", "*"] (by simp [hev, huser, hstar]))
  | qNodeServe n =>
    have hn : Single n := hpiece n List.mem_cons_self
    have hc := closed_concat (hall ["q", "node", n] (by simp [hq, hnode, hn]))
    exact hc
  | qAllNodes rest =>
    refine closed_singles (hall (["q", "node", "*"] ++ parts rest) fun s hs => ?_)
    rcases List.mem_append.1 hs with hs | hs
    · simp only [List.mem_cons, List.not_mem_nil, or_false] at hs
      rcases hs with rfl | rfl | rfl
      · exact hq
      · exact hnode
      · exact hstar
    · exact hpiece s hs
  | key p => exact closed_singles fun s hs => .inl (path_checked h s hs)

/-- The mesh accepts every expression, and every key as a key. -/
theorem keys_valid {k : Keys} {w : Watch} (h : Checked k w.pieces) :
    valid (w.expr k) = true ∧ ∀ p, w = .key p → concrete (w.expr k) = true := by
  refine ⟨?_, fun p hp => ?_⟩
  · rw [expr_path]
    exact valid_of_closed (by simp [path]) (watch_closed h)
  · subst hp
    rw [expr_path, concrete, Bool.not_eq_true', List.contains_eq_mem, decide_eq_false_iff_not]
    intro hc
    rcases mem_intercalate hc with hc | ⟨s, hs, hc⟩
    · exact absurd hc (by decide)
    · obtain ⟨-, -, hstar, -⟩ := validPiece_spec (path_checked h s hs)
      exact hstar hc

/-! ## What an expression finds -/

/-- The pieces of an expression against those of a key. -/
def Takes (cs ds : List String) : Prop :=
  Matches (pattern (cs.map String.toList)) (ds.map String.toList)

theorem toList_map_injective {cs ds : List String} :
    cs.map String.toList = ds.map String.toList ↔ cs = ds :=
  (List.map_injective_iff.2 fun _ _ h => String.toList_inj.1 h).eq_iff

/-- A piece that was checked takes itself. -/
theorem takes_piece {s : String} (h : validPiece s = true) (cs : List String) (t : String)
    (ds : List String) : Takes (s :: cs) (t :: ds) ↔ s = t ∧ Takes cs ds := by
  obtain ⟨-, -, hstar, -⟩ := validPiece_spec h
  obtain ⟨hone, hmany⟩ := Mesh.ne_star hstar
  rw [Takes, List.map_cons, List.map_cons, pattern, List.map_cons, piece, if_neg hone,
    if_neg hmany, matches_cons (by simp)]
  constructor
  · rintro ⟨a, m, heq, hfit, hm⟩
    obtain ⟨rfl, rfl⟩ := List.cons.inj heq
    exact ⟨String.toList_inj.1 hfit, hm⟩
  · rintro ⟨rfl, hm⟩
    exact ⟨_, _, rfl, rfl, hm⟩

theorem takes_star (cs : List String) (t : String) (ds : List String) :
    Takes ("*" :: cs) (t :: ds) ↔ Takes cs ds := by
  have hstar : piece "*".toList = .one := rfl
  rw [Takes, List.map_cons, List.map_cons, pattern, List.map_cons, hstar, matches_cons (by simp)]
  simp [Fits, Takes, pattern]

theorem takes_any (ds : List String) : Takes ["**"] ds := by
  have hany : pattern (["**"].map String.toList) = [.many] := rfl
  rw [Takes, hany]
  exact matches_many _

theorem takes_pieces {cs : List String} (h : ∀ s ∈ cs, validPiece s = true) (ds : List String) :
    Takes cs ds ↔ cs = ds := by
  have hplain : Mesh.Plain (cs.map String.toList) := by
    intro c hc
    obtain ⟨s, hs, rfl⟩ := List.mem_map.1 hc
    exact (validPiece_spec (h s hs)).2.2.1
  rw [Takes, hplain.pattern, matches_word, eq_comm, toList_map_injective]

theorem takes_nil (ds : List String) : Takes [] ds ↔ [] = ds := takes_pieces (by simp) ds

theorem tail_injective {p q : Parsed} (h : p.tail = q.tail) : p = q := by
  have hp := ofParts_tail p
  rw [h, ofParts_tail] at hp
  exact (Option.some.inj hp).symm

theorem parts_injective {s t : String} : parts s = parts t ↔ s = t := by
  refine ⟨fun h => ?_, fun h => h ▸ rfl⟩
  rw [← intercalate_parts s, h, intercalate_parts]

/-- Behind the base an expression takes the keys that it is for. -/
theorem takes_tail {w : Watch} {p : Parsed} (hw : ∀ s ∈ w.pieces, validPiece s = true) :
    Takes w.tail p.tail ↔ w.Finds p := by
  have hnode := takes_piece (s := "node") (by decide)
  have hroom := takes_piece (s := "room") (by decide)
  have hsess := takes_piece (s := "sess") (by decide)
  have hev := takes_piece (s := "ev") (by decide)
  have huser := takes_piece (s := "user") (by decide)
  have hq := takes_piece (s := "q") (by decide)
  cases w with
  | nodeAll => cases p <;> simp [Watch.tail, Parsed.tail, Parsed.words, Parsed.pieces,
      Watch.Finds, hnode, takes_any]
  | roomWhere r =>
    have hr := takes_piece (hw r List.mem_cons_self)
    cases p <;> simp [Watch.tail, Parsed.tail, Parsed.words, Parsed.pieces, Watch.Finds, hroom, hr,
      takes_any]
  | roomAll => cases p <;> simp [Watch.tail, Parsed.tail, Parsed.words, Parsed.pieces,
      Watch.Finds, hroom, takes_any]
  | roomsOfNode n =>
    have hn := takes_piece (hw n List.mem_cons_self)
    cases p <;> simp [Watch.tail, Parsed.tail, Parsed.words, Parsed.pieces, Watch.Finds, hroom, hn,
      takes_star, takes_any]
  | sessAll => cases p <;> simp [Watch.tail, Parsed.tail, Parsed.words, Parsed.pieces,
      Watch.Finds, hsess, takes_any]
  | evRoomAll => cases p <;> simp [Watch.tail, Parsed.tail, Parsed.words, Parsed.pieces,
      Watch.Finds, hev, hroom, takes_star, takes_nil]
  | evUserAll => cases p <;> simp [Watch.tail, Parsed.tail, Parsed.words, Parsed.pieces,
      Watch.Finds, hev, huser, takes_star, takes_nil]
  | qNodeServe n =>
    have hn := takes_piece (hw n List.mem_cons_self)
    cases p <;> simp [Watch.tail, Parsed.tail, Parsed.words, Parsed.pieces, Watch.Finds, hq, hnode,
      hn, takes_any]
  | qAllNodes rest =>
    have hrest : ∀ ds, Takes (parts rest) ds ↔ parts rest = ds := takes_pieces hw
    cases p <;> simp [Watch.tail, Parsed.tail, Parsed.words, Parsed.pieces,
      Watch.Finds, hq, hnode, takes_star, hrest, parts_injective]
  | key q =>
    have hall : ∀ s ∈ q.tail, validPiece s = true := fun s hs =>
      (List.mem_append.1 hs).elim (words_checked q s) (hw s)
    rw [Watch.tail, takes_pieces hall]
    exact ⟨tail_injective, fun e => congrArg Parsed.tail e⟩

/-- **An expression finds the keys that it is for**, of its own deployment and no others. -/
theorem watch_exact {k k' : Keys} {w : Watch} {p : Parsed} (hw : Checked k w.pieces)
    (hp : Checked k' p.pieces) : intersects (w.expr k) (p.key k') = true ↔ k = k' ∧ w.Finds p := by
  have hkey : Checked k' (Watch.key p).pieces := hp
  have hvalid : valid (p.key k') = true := (keys_valid hkey).1
  have hconcrete : concrete (p.key k') = true := (keys_valid hkey).2 p rfl
  have hsplit : ∀ {cs : List String}, (∀ s ∈ cs, Chunk s) → cs ≠ [] →
      ("/".intercalate cs).toList.splitOn '/' = cs.map String.toList := by
    intro cs hcs hne
    rw [String.toList_intercalate]
    refine List.splitOn_intercalate '/' (fun c hc => ?_) (by simpa using hne)
    obtain ⟨s, hs, rfl⟩ := List.mem_map.1 hc
    exact (chunk_chars (hcs s hs)).1
  have hpath : ∀ s ∈ path k' p.tail, Chunk s := (watch_closed hkey).1
  rw [Mesh.intersects_iff_stands (keys_valid hw).1 hvalid hconcrete, Stands, expr_path,
    key_path, hsplit (watch_closed hw).1 (by simp [path]),
    hsplit hpath (by simp [path])]
  show Takes ("ox" :: k.ns :: "int" :: w.tail) ("ox" :: k'.ns :: "int" :: p.tail) ↔ _
  rw [takes_piece (by decide), takes_piece hw.1, takes_piece (by decide), takes_tail hw.2]
  cases k
  cases k'
  simp

/-- Whoever asks where a room is finds its token on any node. -/
theorem watch_exact_lobby : intersects ((Watch.roomWhere "lobby").expr ⟨"c1"⟩)
    ((Parsed.room "lobby" "n1" "e1").key ⟨"c1"⟩) = true ↔
      (⟨"c1"⟩ : Keys) = ⟨"c1"⟩ ∧ (Watch.roomWhere "lobby").Finds (.room "lobby" "n1" "e1") :=
  watch_exact (by decide) (by decide)

end OxlensSfu.Bus
