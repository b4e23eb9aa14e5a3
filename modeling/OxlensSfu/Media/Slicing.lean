import OxlensSfu.Media.Publish
import OxlensSfu.Sub.Shared

/-!
# Codec parameters of a client

The parameters that a client sends reach `h264_profile` on two ways: in `ROOM_JOIN`, where
`Table::seed` slices them with the table locked, and in `PUBLISH_TRACKS`, where `matches_room`
slices them when codec and room are H264.

**Theorem (`codecs_complete_iff`).** Both come to an end exactly when, in every parameter they slice,
a character ends with the fourth byte.
-/

namespace OxlensSfu.Media

open OxlensSfu.Rooms (MediaCodecs)
open OxlensSfu.Sub

/-- The profile is only looked at for the codec of the room and the packetization it wants. -/
def SafePublish (kind : Kind) (codec fmtp : Option String) (m : MediaCodecs) : Prop :=
  kind = .video → codec.bind canonicalVideo = some "H264" → lower (roomVideo m) = "h264" →
    (fmtpParam fmtp "packetization-mode").getD "0" = "1" → SafeParam fmtp

theorem matchesRoom_isSome {kind : Kind} {codec fmtp : Option String} {m : MediaCodecs} :
    (matchesRoom kind codec fmtp m).isSome ↔ SafePublish kind codec fmtp m := by
  rw [SafePublish]
  cases kind with
  | audio => exact iff_of_true rfl nofun
  | video =>
    rw [matchesRoom.eq_2]
    cases codec.bind canonicalVideo with
    | none => exact iff_of_true rfl fun _ h => nomatch h
    | some c =>
      dsimp only
      by_cases hc : c = "H264"
      · subst hc
        have hlower : lower "H264" = "h264" := by decide
        rw [hlower, if_pos rfl]
        by_cases hroom : lower (roomVideo m) = "h264"
        · rw [if_neg (not_not.2 hroom.symm)]
          split_ifs with hpm
          · rw [Option.isSome_map, h264Profile_isSome]
            exact ⟨fun h _ _ _ _ => h, fun h => h rfl rfl hroom hpm⟩
          · exact iff_of_true rfl fun _ _ _ h => absurd h hpm
        · rw [if_pos (Ne.symm hroom)]
          exact iff_of_true rfl fun _ _ h => absurd h hroom
      · rw [if_neg hc]
        refine iff_of_true ?_ fun _ h => absurd (Option.some.inj h) hc
        split_ifs <;> rfl

/-- A seed of a table whose lock is whole leaves it whole when it comes to its end. -/
theorem seed_completes {t : Table} {codecs : List JoinCodec} (extmap : List ExtMap) :
    ((Shared.seed ⟨t, false⟩ codecs extmap).2.isSome ∧
        (Shared.seed ⟨t, false⟩ codecs extmap).1.poisoned = false) ↔
      t.st.seeded = true ∨ ∀ c ∈ codecs, SafeCodec c := by
  rw [← Table.seed_completes extmap]
  exact ⟨fun h => h.1, fun h => ⟨h, Option.isNone_eq_false_iff.2 h⟩⟩

/-- **When codec parameters of a client do no harm**, in the table and in a publication. -/
theorem codecs_complete_iff (t : Table) (codecs : List JoinCodec) (extmap : List ExtMap)
    (kind : Kind) (codec fmtp : Option String) (m : MediaCodecs) :
    (((Shared.seed ⟨t, false⟩ codecs extmap).2.isSome ∧
          (Shared.seed ⟨t, false⟩ codecs extmap).1.poisoned = false) ↔
        t.st.seeded = true ∨ ∀ c ∈ codecs, SafeCodec c) ∧
      ((matchesRoom kind codec fmtp m).isSome ↔ SafePublish kind codec fmtp m) :=
  ⟨seed_completes extmap, matchesRoom_isSome⟩

/-- The profile ends in a character of two bytes, the second of which is the fifth. -/
theorem profile_slice_panics : ¬ ∀ (t : Table) (codecs : List JoinCodec) (extmap : List ExtMap),
    (Shared.seed ⟨t, false⟩ codecs extmap).2.isSome ∧
      (Shared.seed ⟨t, false⟩ codecs extmap).1.poisoned = false := by
  intro h
  have hseed := h (.new .one 2) [oddProfile] []
  exact absurd hseed.1 (by decide)

end OxlensSfu.Media
