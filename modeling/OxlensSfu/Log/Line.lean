import Mathlib.Data.List.DropRight
import Mathlib.Tactic

/-!
# A line of the log

`Line::render` (`crates/common/src/log/line.rs`) writes a line as pairs of a key and a value, the
message last. When the line is too long it cuts the message. Values are quoted when they need it,
and some characters then take two bytes instead of one.

The cut compares the bytes of the characters it has taken, which are not escaped yet, and the bytes
of the next one, which is. So a message with many quotation marks is cut too late.

**Theorem (`render_le_iff`).** A line for which the message can be cut at all is within the limit
exactly when the message need not be cut, or no beginning of it that the cut would take is too long
once it is escaped.
-/

namespace OxlensSfu.Log

/-- A text as its characters. -/
abbrev Text := List Char

/-- Its length in bytes. -/
def len (s : Text) : Nat := (s.map Char.utf8Size).sum

inductive Kind where
  | ev
  | stat
  | diag
  deriving DecidableEq, Repr

def Kind.asStr : Kind → Text
  | .ev => "ev".toList
  | .stat => "stat".toList
  | .diag => "diag".toList

def keyNames : List Text :=
  ["session".toList, "room".toList, "user".toList, "epoch".toList, "unit".toList, "track".toList,
    "ssrc".toList, "seq".toList, "floor_sequence".toList, "mbcp_seq".toList, "arev".toList]

structure Line where
  kind : Kind
  spec : Option Text := none
  keys : Vector (Option Text) 11 := Vector.replicate 11 none
  recs : List (Text × Text) := []
  raw : Option Text := none
  msg : Option Text := none

structure Head where
  node : Text
  procName : Text

/-! ## Quoting -/

/-- `char::is_control`. -/
def isControl (c : Char) : Bool := c.val < 0x20 || 0x7f ≤ c.val && c.val < 0xa0

def needsQuote (v : Text) : Bool :=
  v.isEmpty || v.any fun c => c = ' ' || c = '"' || c = '=' || c = '\\' || isControl c

def escape : Char → Text
  | '"' => ['\\', '"']
  | '\\' => ['\\', '\\']
  | '\n' => ['\\', 'n']
  | '\r' => ['\\', 'r']
  | '\t' => ['\\', 't']
  | c => [c]

def quote (v : Text) : Text :=
  if needsQuote v then '"' :: v.flatMap escape ++ ['"'] else v

def pushKv (out k v : Text) : Text :=
  (if out = [] then k else out ++ ' ' :: k) ++ '=' :: quote v

/-- `str::trim_matches`. -/
def trimMatches (s : Text) (c : Char) : Text := (s.dropWhile (· = c)).rdropWhile (· = c)

/-! ## The line -/

/-- Everything before the message. -/
def Line.before (l : Line) (head : Head) (ts : Text) (monoUs : Nat) : Text :=
  let out := pushKv [] "ts".toList ts
  let out := pushKv out "mono".toList (toString monoUs).toList
  let out := pushKv out "node".toList head.node
  let out := pushKv out "proc".toList head.procName
  let out := pushKv out "kind".toList l.kind.asStr
  let out := match l.spec with
    | some s => if l.kind = .ev then pushKv out "spec".toList s else out
    | none => out
  let out := (keyNames.zip l.keys.toList).foldl
    (fun out kv => match kv.2 with
      | some v => pushKv out kv.1 v
      | none => out) out
  let out := l.recs.foldl (fun out kv => pushKv out kv.1 kv.2) out
  match l.raw with
  | some r => if r = [] then out else (if out = [] then out else out ++ [' ']) ++ r
  | none => out

/-- What a character is taken to need. -/
def piece (c : Char) : Text := trimMatches (quote [c]) '"'

/-- The loop that cuts the message. -/
def cutLoop (room : Nat) : Text → Text → Text
  | cut, [] => cut
  | cut, c :: m => if len cut + len (piece c) > room then cut else cutLoop room (cut ++ [c]) m

def Line.render (l : Line) (head : Head) (ts : Text) (monoUs max : Nat) : Text :=
  let out := l.before head ts monoUs
  match l.msg with
  | none => out
  | some m =>
    let full := pushKv out "msg".toList m
    if len full ≤ max then full
    else
      let out := pushKv out "truncated".toList "1".toList
      let room := max - (len out + len " msg=\"\"".toList)
      pushKv out "msg".toList (cutLoop room [] m)

/-! ## Lengths -/

@[simp] theorem len_nil : len [] = 0 := rfl

@[simp] theorem len_cons (c : Char) (s : Text) : len (c :: s) = c.utf8Size + len s := by
  simp [len]

@[simp] theorem len_append (s t : Text) : len (s ++ t) = len s + len t := by
  simp [len]

/-- What the escaped text has in bytes. -/
def width (s : Text) : Nat := len (s.flatMap escape)

@[simp] theorem width_nil : width [] = 0 := rfl

theorem width_append (s t : Text) : width (s ++ t) = width s + width t := by
  rw [width, List.flatMap_append, len_append, width, width]

theorem pushKv_len {out : Text} (h : out ≠ []) (k v : Text) :
    len (pushKv out k v) = len out + len k + len (quote v) + 2 := by
  have hblank : Char.utf8Size ' ' = 1 := by decide
  have heq : Char.utf8Size '=' = 1 := by decide
  rw [pushKv, if_neg h]
  simp only [len_append, len_cons, hblank, heq]
  omega

theorem pushKv_ne_nil (out k v : Text) : pushKv out k v ≠ [] := by
  simp [pushKv]

theorem before_ne_nil (l : Line) (head : Head) (ts : Text) (monoUs : Nat) :
    l.before head ts monoUs ≠ [] := by
  have hfold : ∀ {α : Type} (f : Text → α → Text) (xs : List α) {out : Text}, out ≠ [] →
      (∀ out x, out ≠ [] → f out x ≠ []) → xs.foldl f out ≠ [] := by
    intro α f xs out hout hf
    exact List.foldlRecOn (motive := fun out => out ≠ []) xs f hout fun out hout x _ =>
      hf out x hout
  rw [Line.before]
  have hbody : ∀ {out : Text}, out ≠ [] → l.recs.foldl (fun out kv => pushKv out kv.1 kv.2)
      ((keyNames.zip l.keys.toList).foldl (fun out kv => match kv.2 with
        | some v => pushKv out kv.1 v
        | none => out) out) ≠ [] := by
    intro out hout
    refine hfold _ _ (hfold _ _ hout fun out kv hout => ?_) fun out kv _ => pushKv_ne_nil _ _ _
    cases kv.2 with
    | none => exact hout
    | some v => exact pushKv_ne_nil _ _ _
  have hraw : ∀ {out : Text}, out ≠ [] → (match l.raw with
      | some r => if r = [] then out else (if out = [] then out else out ++ [' ']) ++ r
      | none => out) ≠ [] := by
    intro out hout
    cases l.raw with
    | none => exact hout
    | some r =>
      dsimp only
      split_ifs
      · exact hout
      · simp
  refine hraw (hbody ?_)
  cases l.spec with
  | none => exact pushKv_ne_nil _ _ _
  | some s =>
    dsimp only
    split_ifs <;> exact pushKv_ne_nil _ _ _

/-! ## Escaping -/

/-- The characters that are not written as they are. -/
def escaped : List Char := ['"', '\\', '\n', '\r', '\t']

theorem escape_of_notMem {c : Char} (h : c ∉ escaped) : escape c = [c] := by
  simp only [escaped, List.mem_cons, List.not_mem_nil, or_false, not_or] at h
  obtain ⟨h₁, h₂, h₃, h₄, h₅⟩ := h
  rw [escape]
  all_goals assumption

theorem needsQuote_of_escaped {c : Char} (h : c ∈ escaped) {v : Text} (hc : c ∈ v) :
    needsQuote v = true := by
  have hall : (escaped.all fun c => c = ' ' || c = '"' || c = '=' || c = '\\' || isControl c) =
      true := by decide
  rw [needsQuote, Bool.or_eq_true, List.any_eq_true]
  exact .inr ⟨c, hc, List.all_eq_true.1 hall c h⟩

theorem escape_of_not_needed {v : Text} (h : needsQuote v = false) : v.flatMap escape = v := by
  have hv : ∀ c ∈ v, escape c = [c] := by
    intro c hc
    refine escape_of_notMem fun he => ?_
    rw [needsQuote_of_escaped he hc] at h
    exact nomatch h
  rw [List.flatMap_congr hv, List.flatMap_singleton']

/-- The estimate of the cut: a character is counted with its own bytes at least, and with one more
at most. -/
theorem piece_len (c : Char) :
    c.utf8Size ≤ len (piece c) ∧ len (piece c) ≤ c.utf8Size + 1 := by
  by_cases h : c ∈ escaped
  · have hall : (escaped.all fun c => c.utf8Size ≤ len (piece c) ∧
        len (piece c) ≤ c.utf8Size + 1) = true := by decide
    exact of_decide_eq_true (List.all_eq_true.1 hall c h)
  · have hquote : c ≠ '"' := fun he => h (he ▸ List.mem_cons_self)
    have hpiece : piece c = [c] := by
      rw [piece, quote]
      split_ifs
      · simp [trimMatches, escape_of_notMem h, hquote, List.rdropWhile]
      · simp [trimMatches, hquote, List.rdropWhile]
    rw [hpiece, len_cons, len_nil]
    exact ⟨Nat.le_refl _, Nat.le_succ _⟩

theorem quote_len (v : Text) : len (quote v) = if needsQuote v then width v + 2 else width v := by
  rw [quote]
  split_ifs with h
  · have hquote : Char.utf8Size '"' = 1 := by decide
    simp only [len_append, len_cons, len_nil, hquote, width]
    omega
  · rw [width, escape_of_not_needed (Bool.not_eq_true _ ▸ h)]

/-! ## The cut -/

variable {room : Nat}

theorem cutLoop_eq (cut m : Text) : ∃ q, cutLoop room cut m = cut ++ q ∧ q <+: m := by
  induction m generalizing cut with
  | nil => exact ⟨[], by simp [cutLoop], List.nil_prefix⟩
  | cons c m ih =>
    rw [cutLoop]
    split_ifs
    · exact ⟨[], by simp, List.nil_prefix⟩
    · obtain ⟨q, hq, hm⟩ := ih (cut ++ [c])
      exact ⟨c :: q, by simp [hq], List.cons_prefix_cons.2 ⟨rfl, hm⟩⟩

/-- The last character that is taken has passed the test. -/
theorem cutLoop_last {cut m p : Text} {c : Char} (h : cutLoop room cut m = cut ++ (p ++ [c])) :
    len (cut ++ p) + len (piece c) ≤ room := by
  induction m generalizing cut p with
  | nil => simp [cutLoop] at h
  | cons d m ih =>
    rw [cutLoop] at h
    split_ifs at h with hfull
    · simp at h
    · obtain ⟨q, hq, -⟩ := @cutLoop_eq room (cut ++ [d]) m
      cases p with
      | nil =>
        obtain ⟨rfl, -⟩ : d = c ∧ q = [] := by simpa [hq] using h
        rw [List.append_nil]
        exact Nat.le_of_not_lt hfull
      | cons e p =>
        obtain ⟨rfl, -⟩ : d = e ∧ q = p ++ [c] := by simpa [hq] using h
        rw [List.append_cons]
        exact ih (by rw [h]; simp)

/-- Everything is taken up to a character that passes the test: those before it have passed it
too. -/
theorem cutLoop_takes {cut m p : Text} {c : Char} (hm : p ++ [c] <+: m)
    (hfit : len (cut ++ p) + len (piece c) ≤ room) : cut ++ (p ++ [c]) <+: cutLoop room cut m := by
  induction m generalizing cut p with
  | nil => simp at hm
  | cons d m ih =>
    have hd : len cut + len (piece d) ≤ room ∧ (p = [] ∧ d = c ∨ ∃ p', p = d :: p') := by
      cases p with
      | nil =>
        obtain rfl : c = d := by simpa using hm
        rw [List.append_nil] at hfit
        exact ⟨hfit, .inl ⟨rfl, rfl⟩⟩
      | cons e p =>
        obtain ⟨rfl, -⟩ := List.cons_prefix_cons.1 hm
        simp only [len_append, len_cons] at hfit
        have hpos := (piece_len c).1
        have hone := c.utf8Size_pos
        have hnext := (piece_len e).2
        exact ⟨by omega, .inr ⟨p, rfl⟩⟩
    rw [cutLoop, if_neg (Nat.not_lt.2 hd.1)]
    rcases hd.2 with ⟨rfl, rfl⟩ | ⟨p, rfl⟩
    · obtain ⟨q, hq, -⟩ := @cutLoop_eq room (cut ++ [d]) m
      rw [hq]
      exact List.prefix_append _ _
    · have hrest : p ++ [c] <+: m := (List.cons_prefix_cons.1 hm).2
      have hcut := @ih (cut ++ [d]) p hrest (by rwa [← List.append_cons])
      rwa [← List.append_cons] at hcut

theorem width_mono {s t : Text} (h : s <+: t) : width s ≤ width t := by
  obtain ⟨r, rfl⟩ := h
  rw [width_append]
  exact Nat.le_add_right _ _

/-- What is taken fits before it is escaped. -/
theorem len_cut (m : Text) : len (cutLoop room [] m) ≤ room := by
  rcases List.eq_nil_or_concat (cutLoop room [] m) with h | ⟨p, c, h⟩
  · rw [h]
    exact Nat.zero_le _
  · rw [List.concat_eq_append] at h
    have hlast := @cutLoop_last room [] m p c h
    have hpos := (piece_len c).1
    rw [h, len_append, len_cons, len_nil]
    rw [List.nil_append] at hlast
    omega

/-- What is taken fits after that when every beginning that could be taken does. -/
theorem width_cut (m : Text) : width (cutLoop room [] m) ≤ room ↔
    ∀ p c, p ++ [c] <+: m → len p + len (piece c) ≤ room → width (p ++ [c]) ≤ room := by
  constructor
  · intro h p c hm hfit
    exact Nat.le_trans (width_mono (@cutLoop_takes room [] m p c hm hfit)) h
  · intro h
    rcases List.eq_nil_or_concat (cutLoop room [] m) with hnil | ⟨p, c, hcut⟩
    · rw [hnil]
      exact Nat.zero_le _
    · rw [List.concat_eq_append] at hcut
      obtain ⟨q, hq, hm⟩ := @cutLoop_eq room [] m
      rw [List.nil_append] at hq
      rw [hcut]
      exact h p c (hcut ▸ hq ▸ hm) (@cutLoop_last room [] m p c hcut)

/-! ## The limit -/

/-- The message need not be cut, or it is cut where its escaped characters still fit. The 19 bytes
are those of the mark and of an empty message. -/
def Line.CutsWell (l : Line) (head : Head) (ts : Text) (monoUs max : Nat) : Prop :=
  let out := l.before head ts monoUs
  ∀ m, l.msg = some m → len (pushKv out "msg".toList m) ≤ max ∨
    ∀ p c, p ++ [c] <+: m → len p + len (piece c) ≤ max - (len out + 19) →
      width (p ++ [c]) ≤ max - (len out + 19)

/-- **When a line is within the limit.** -/
theorem render_le_iff (l : Line) (head : Head) (ts : Text) (monoUs max : Nat)
    (hroom : len (pushKv (pushKv (l.before head ts monoUs) "truncated".toList "1".toList)
      "msg".toList []) ≤ max) :
    len (l.render head ts monoUs max) ≤ max ↔ l.CutsWell head ts monoUs max := by
  rw [Line.render, Line.CutsWell]
  have hout := before_ne_nil l head ts monoUs
  generalize l.before head ts monoUs = out at hroom hout
  have hmark : len (pushKv out "truncated".toList "1".toList) = len out + 12 := by
    rw [pushKv_len hout]
    rfl
  have hmsg : ∀ v, len (pushKv (pushKv out "truncated".toList "1".toList) "msg".toList v) =
      len out + 17 + len (quote v) := by
    intro v
    have hkey : len "msg".toList = 3 := rfl
    rw [pushKv_len (pushKv_ne_nil _ _ _), hmark, hkey]
    omega
  have hempty : len (quote []) = 2 := rfl
  have hblank : len " msg=\"\"".toList = 7 := rfl
  rw [hmsg, hempty] at hroom
  cases hm : l.msg with
  | none => exact iff_of_true (by dsimp only; omega) nofun
  | some m =>
    dsimp only
    rw [hmark, hblank]
    split_ifs with hfull
    · refine iff_of_true hfull fun m' he => .inl ?_
      rwa [← Option.some.inj he]
    · have hcut : len (pushKv (pushKv out "truncated".toList "1".toList) "msg".toList
          (cutLoop (max - (len out + 12 + 7)) [] m)) ≤ max ↔
          width (cutLoop (max - (len out + 12 + 7)) [] m) ≤ max - (len out + 12 + 7) := by
        have hlen := @len_cut (max - (len out + 12 + 7)) m
        rw [hmsg, quote_len]
        split_ifs with hq
        · omega
        · rw [width, escape_of_not_needed (Bool.not_eq_true _ ▸ hq)]
          omega
      rw [hcut, width_cut]
      constructor
      · rintro h m' he
        obtain rfl := Option.some.inj he
        exact .inr h
      · intro h
        exact (h m rfl).resolve_left hfull

/-- A line of the log with a message of quotation marks. -/
def quotedLine : Line := { kind := .diag, msg := some (List.replicate 12 '"') }

def quotedHead : Head := ⟨"n1".toList, "sfu".toList⟩

theorem render_le_iff_quoted :
    len (quotedLine.render quotedHead "T".toList 1 64) ≤ 64 ↔
      quotedLine.CutsWell quotedHead "T".toList 1 64 :=
  render_le_iff quotedLine quotedHead "T".toList 1 64 (by decide)

theorem quoted_too_long : ¬ ∀ (l : Line) (head : Head) (ts : Text) (monoUs max : Nat),
    len (pushKv (pushKv (l.before head ts monoUs) "truncated".toList "1".toList)
      "msg".toList []) ≤ max → len (l.render head ts monoUs max) ≤ max := by
  intro h
  exact absurd (h quotedLine quotedHead "T".toList 1 64 (by decide)) (by decide)

end OxlensSfu.Log
