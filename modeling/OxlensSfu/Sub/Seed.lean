import OxlensSfu.Sub.Table

/-!
# Slices of what a client sends

`h264_profile` takes the first four bytes of a parameter that the client has sent, once it has
found that there are four. A slice that ends inside a character panics. `Table::seed` comes to it
with the table locked, and a lock whose holder panics is poisoned: every later call finds it so and
gives up.

A seed comes to its end exactly when, in every profile it slices, a character ends with the fourth
byte (`Table.seed_completes`).
-/

namespace OxlensSfu.Sub

/-! ## Slices -/

def bytes (s : List Char) : Nat := (s.map Char.utf8Size).sum

/-- A character of the text, or nothing at all, ends with the byte. -/
def Boundary (n : Nat) (s : List Char) : Prop := ∃ t, t <+: s ∧ bytes t = n

theorem sliceTo_eq_some {n : Nat} {s t : List Char} :
    sliceTo n s = some t ↔ t <+: s ∧ bytes t = n := by
  induction s generalizing n t with
  | nil =>
    cases n with
    | zero =>
      constructor
      · intro h
        rw [← Option.some.inj h]
        exact ⟨List.nil_prefix, rfl⟩
      · rintro ⟨hp, -⟩
        rw [List.prefix_nil.1 hp]
        rfl
    | succ n =>
      refine iff_of_false nofun ?_
      rintro ⟨hp, hb⟩
      rw [List.prefix_nil.1 hp] at hb
      exact nomatch hb
  | cons c s ih =>
    cases n with
    | zero =>
      rw [sliceTo]
      constructor
      · intro h
        rw [← Option.some.inj h]
        exact ⟨List.nil_prefix, rfl⟩
      · rintro ⟨-, hb⟩
        cases t with
        | nil => rfl
        | cons d t =>
          have hpos := d.utf8Size_pos
          simp only [bytes, List.map_cons, List.sum_cons] at hb
          omega
    | succ n =>
      rw [sliceTo]
      cases t with
      | nil =>
        refine iff_of_false ?_ nofun
        split_ifs <;> simp
      | cons d t =>
        have hbytes : bytes (d :: t) = d.utf8Size + bytes t := by simp [bytes]
        rw [hbytes, List.cons_prefix_cons]
        split_ifs with hfit
        · rw [Option.map_eq_some_iff]
          simp only [ih, List.cons.injEq]
          constructor
          · rintro ⟨t', ⟨hp, hb⟩, rfl, rfl⟩
            exact ⟨⟨rfl, hp⟩, by omega⟩
          · rintro ⟨⟨rfl, hp⟩, hb⟩
            exact ⟨t, ⟨hp, by omega⟩, rfl, rfl⟩
        · refine iff_of_false nofun ?_
          rintro ⟨⟨rfl, -⟩, hb⟩
          omega

theorem sliceTo_isSome {n : Nat} {s : List Char} : (sliceTo n s).isSome ↔ Boundary n s := by
  rw [Option.isSome_iff_exists]
  exact exists_congr fun t => sliceTo_eq_some

/-! ## What does not panic -/

/-- A character of the profile ends with its fourth byte, if it has four. -/
def SafeParam (fmtp : Option String) : Prop :=
  ∀ p, fmtpParam fmtp "profile-level-id" = some p → 4 ≤ p.utf8ByteSize → Boundary 4 p.toList

def SafeCodec (c : JoinCodec) : Prop :=
  c.kind = .video → lower c.name = "h264" → SafeParam c.fmtp

theorem h264Profile_isSome {fmtp : Option String} :
    (h264Profile fmtp).isSome ↔ SafeParam fmtp := by
  rw [h264Profile, SafeParam]
  cases hp : fmtpParam fmtp "profile-level-id" with
  | none => exact iff_of_true rfl nofun
  | some p =>
    by_cases hlen : 4 ≤ p.utf8ByteSize
    · simp [Option.filter, hlen, sliceTo_isSome]
    · refine iff_of_true (by simp [Option.filter, hlen]) ?_
      rintro q hq hq'
      exact absurd (Option.some.inj hq ▸ hq') hlen

theorem joinTuple_isSome {c : JoinCodec} : (joinTuple c).isSome ↔ SafeCodec c := by
  rw [joinTuple, SafeCodec]
  cases c.kind with
  | audio =>
    refine iff_of_true ?_ nofun
    dsimp only
    split_ifs <;> rfl
  | video =>
    dsimp only
    split_ifs with hname
    · rw [Option.isSome_map, h264Profile_isSome]
      exact ⟨fun h _ _ => h, fun h => h rfl hname⟩
    · exact iff_of_true rfl fun _ h => absurd h hname

/-! ## Seeding -/

namespace Table

/-- The loop comes to its end when every codec is safe. -/
theorem seedLoop_completes {s : State} {cs : List JoinCodec} :
    (seedLoop s cs).2 = true ↔ ∀ c ∈ cs, SafeCodec c := by
  induction cs generalizing s with
  | nil => exact iff_of_true rfl nofun
  | cons c cs ih =>
    rw [seedLoop, List.forall_mem_cons, ← joinTuple_isSome]
    cases joinTuple c with
    | none => exact iff_of_false nofun fun h => nomatch h.1
    | some t =>
      refine Iff.trans ?_ (and_iff_right (Option.isSome_some (a := t))).symm
      cases t with
      | none => exact ih
      | some tu => exact ih

/-- The seed of the table, when every codec is safe: its answer says whether it was the first. -/
theorem seed_completes {t : Table} {codecs : List JoinCodec} (extmap : List ExtMap) :
    (t.seed codecs extmap).2.isSome ↔ t.st.seeded = true ∨ ∀ c ∈ codecs, SafeCodec c := by
  rw [seed]
  by_cases hs : t.st.seeded
  · simp [hs]
  · rw [if_neg hs, ← @seedLoop_completes { t.st with seeded := true }]
    generalize seedLoop { t.st with seeded := true } codecs = x
    obtain ⟨st, b⟩ := x
    cases b with
    | false => exact iff_of_false nofun fun h => h.elim hs nofun
    | true => exact iff_of_true rfl (.inr rfl)

end Table

end OxlensSfu.Sub
