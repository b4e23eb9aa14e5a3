import Mathlib.Data.List.Basic

/-!
# Reading an input from a position

A reader takes a list and a position in it, and comes to a value and the position after what it
read, to a refusal, or to an access outside the list. Two properties compose along a sequence of
reads:

* a `Steady` reader never leaves its input, and what it reads stays the same when the input goes on;
* a reader that `Reads` an encoding takes all of it and gives its value, wherever it stands.

**Theorems.** A steady reader that reads the encodings of a value gives the value back
(`whole_of_reads`), refuses what is left of an encoding when its end is cut off (`whole_of_cut`)
and an encoding with something after it (`whole_of_more`). So no encoding is the beginning of
another, and nothing has to be said about their shapes.
-/

namespace OxlensSfu.Lib

variable {α β γ : Type}

/-- What a read comes to. -/
inductive Got (α : Type) where
  | ok (a : α) (next : Nat)
  | none
  | outside
  deriving DecidableEq

/-- An access outside the input. -/
inductive Outside where
  | outside
  deriving DecidableEq

def Reader (β α : Type) : Type := List β → Nat → Got α

namespace Reader

protected def pure (a : α) : Reader β α := fun _ i => .ok a i

protected def bind (r : Reader β α) (f : α → Reader β γ) : Reader β γ := fun b i =>
  match r b i with
  | .ok a j => f a b j
  | .none => .none
  | .outside => .outside

instance : Monad (Reader β) where
  pure := Reader.pure
  bind := Reader.bind

/-- Nothing is read, and nothing can be. -/
def fail : Reader β α := fun _ _ => .none

/-- The next item, when there is one. -/
def item : Reader β β := fun b i =>
  match b[i]? with
  | some x => .ok x (i + 1)
  | none => .none

/-- How much follows the position, which has to be inside for that. -/
def left : Reader β Nat := fun b i => if i ≤ b.length then .ok (b.length - i) i else .outside

/-- The next `n` items, which have to be there. -/
def slice (n : Nat) : Reader β { l : List β // l.length = n } := fun b i =>
  if h : i + n ≤ b.length then
    .ok ⟨(b.drop i).take n, by rw [List.length_take, List.length_drop]; omega⟩ (i + n)
  else .outside

/-- A value that asks for `m` items or more behind it. -/
def bounded (r : Reader β α) (m : α → Nat) : Reader β α := do
  let a ← r
  let k ← left
  if m a ≤ k then pure a else fail

/-- The reader, `n` times. -/
def times (r : Reader β α) : (n : Nat) → Reader β { l : List α // l.length = n }
  | 0 => pure ⟨[], rfl⟩
  | n + 1 => do
    let a ← r
    let l ← times r n
    pure ⟨a :: l.1, by rw [List.length_cons, l.2]⟩

/-- The value of a read from the beginning that ends with its input. -/
def whole (r : Reader β α) (b : List β) : Except Outside (Option α) :=
  match r b 0 with
  | .ok a j => .ok (if j = b.length then some a else none)
  | .none => .ok none
  | .outside => .error .outside

theorem pure_apply (a : α) (b : List β) (i : Nat) : (pure a : Reader β α) b i = .ok a i := rfl

theorem bind_apply (r : Reader β α) (f : α → Reader β γ) (b : List β) (i : Nat) :
    (r >>= f) b i =
      match r b i with
      | .ok a j => f a b j
      | .none => .none
      | .outside => .outside := rfl

theorem bind_ok {r : Reader β α} {f : α → Reader β γ} {b : List β} {i j : Nat} {a : α}
    (h : r b i = .ok a j) : (r >>= f) b i = f a b j := by
  rw [bind_apply, h]

theorem bounded_ok {r : Reader β α} {b : List β} {i j : Nat} {a : α} (h : r b i = .ok a j)
    (hj : j ≤ b.length) (m : α → Nat) :
    bounded r m b i = if m a ≤ b.length - j then .ok a j else .none := by
  have hleft : left b j = .ok (b.length - j) j := if_pos hj
  rw [bounded, bind_ok h, bind_ok hleft]
  split <;> rfl

/-! ## Steady readers -/

/-- From a position inside the input the reader ends inside it, and what it read there it reads
from any longer input. -/
structure Steady (r : Reader β α) : Prop where
  inside : ∀ b i, i ≤ b.length → r b i ≠ .outside
  limit : ∀ b i a j, i ≤ b.length → r b i = .ok a j → j ≤ b.length
  stable : ∀ b i a j c, i ≤ b.length → r b i = .ok a j → r (b ++ c) i = .ok a j

namespace Steady

protected theorem pure (a : α) : Steady (pure a : Reader β α) where
  inside _ _ _ h := nomatch h
  limit b i c j hi h := by
    rw [pure_apply, Got.ok.injEq] at h
    omega
  stable _ _ _ _ _ _ h := h

theorem fail : Steady (fail : Reader β α) where
  inside _ _ _ h := nomatch h
  limit _ _ _ _ _ h := nomatch h
  stable _ _ _ _ _ _ h := nomatch h

/-- The second reader need only be steady where the first one ends. -/
theorem bind_where {r : Reader β α} {f : α → Reader β γ} (hr : Steady r)
    (inside : ∀ b i a j, i ≤ b.length → r b i = .ok a j → f a b j ≠ .outside)
    (limit : ∀ b i a j, i ≤ b.length → r b i = .ok a j →
      ∀ d k, f a b j = .ok d k → k ≤ b.length)
    (stable : ∀ b i a j, i ≤ b.length → r b i = .ok a j →
      ∀ d k c, f a b j = .ok d k → f a (b ++ c) j = .ok d k) :
    Steady (r >>= f) where
  inside b i hi := by
    rw [bind_apply]
    cases h : r b i with
    | ok a j => exact inside b i a j hi h
    | none => exact fun h => nomatch h
    | outside => exact absurd h (hr.inside b i hi)
  limit b i d k hi hd := by
    rw [bind_apply] at hd
    cases h : r b i with
    | ok a j =>
      rw [h] at hd
      exact limit b i a j hi h d k hd
    | none =>
      rw [h] at hd
      nomatch hd
    | outside => exact absurd h (hr.inside b i hi)
  stable b i d k c hi hd := by
    rw [bind_apply] at hd
    cases h : r b i with
    | ok a j =>
      rw [h] at hd
      rw [bind_ok (hr.stable b i a j c hi h)]
      exact stable b i a j hi h d k c hd
    | none =>
      rw [h] at hd
      nomatch hd
    | outside => exact absurd h (hr.inside b i hi)

protected theorem bind {r : Reader β α} {f : α → Reader β γ} (hr : Steady r)
    (hf : ∀ a, Steady (f a)) : Steady (r >>= f) :=
  hr.bind_where (fun b i a j hi h => (hf a).inside b j (hr.limit b i a j hi h))
    (fun b i a j hi h d k hd => (hf a).limit b j d k (hr.limit b i a j hi h) hd)
    (fun b i a j hi h d k c hd => (hf a).stable b j d k c (hr.limit b i a j hi h) hd)

protected theorem ite {p : Prop} [Decidable p] {r s : Reader β α} (hr : Steady r)
    (hs : Steady s) : Steady (if p then r else s) := by
  split
  · exact hr
  · exact hs

theorem item : Steady (item : Reader β β) where
  inside b i _ h := by
    unfold Reader.item at h
    split at h <;> nomatch h
  limit b i a j _ h := by
    unfold Reader.item at h
    split at h
    · next x hx =>
      obtain ⟨hlt, -⟩ := List.getElem?_eq_some_iff.mp hx
      rw [Got.ok.injEq] at h
      omega
    · nomatch h
  stable b i a j c _ h := by
    unfold Reader.item at h ⊢
    split at h
    · next x hx =>
      obtain ⟨hlt, -⟩ := List.getElem?_eq_some_iff.mp hx
      rw [List.getElem?_append_left hlt, hx]
      exact h
    · nomatch h

theorem bounded {r : Reader β α} (hr : Steady r) (m : α → Nat) : Steady (bounded r m) := by
  have ends : ∀ b i a j, i ≤ b.length → r b i = .ok a j → j ≤ b.length := hr.limit
  refine hr.bind_where (fun b i a j hi h => ?_) (fun b i a j hi h d k hd => ?_)
    fun b i a j hi h d k c hd => ?_
  all_goals
    have hj := ends b i a j hi h
    have here := (bind_ok h).symm.trans (bounded_ok h hj m)
  · rw [here]
    split <;> exact fun h => nomatch h
  · rw [here] at hd
    split at hd
    · rw [Got.ok.injEq] at hd
      omega
    · nomatch hd
  · have there := (bind_ok (hr.stable b i a j c hi h)).symm.trans
      (bounded_ok (hr.stable b i a j c hi h) (by rw [List.length_append]; omega) m)
    rw [here] at hd
    split at hd
    · rw [there, if_pos (by rw [List.length_append]; omega)]
      exact hd
    · nomatch hd

theorem fits_bounded {r : Reader β α} (hr : Steady r) {m : α → Nat} {b : List β} {i j : Nat}
    {a : α} (hi : i ≤ b.length) (h : Reader.bounded r m b i = .ok a j) : j + m a ≤ b.length := by
  cases hd : r b i with
  | ok d k =>
    have hk := hr.limit b i d k hi hd
    rw [bounded_ok hd hk] at h
    split at h
    · rw [Got.ok.injEq] at h
      obtain ⟨rfl, rfl⟩ := h
      omega
    · nomatch h
  | none =>
    rw [Reader.bounded, bind_apply, hd] at h
    nomatch h
  | outside => exact absurd hd (hr.inside b i hi)

/-- A slice of a length that is known to be there. -/
theorem bind_slice {r : Reader β α} {m : α → Nat}
    {f : (a : α) → { l : List β // l.length = m a } → Reader β γ} (hr : Steady r)
    (fits : ∀ b i a j, i ≤ b.length → r b i = .ok a j → j + m a ≤ b.length)
    (hf : ∀ a l, Steady (f a l)) : Steady (r >>= fun a => slice (m a) >>= f a) := by
  -- what the slice comes to, in the input and in any longer one
  have took : ∀ b i a j, i ≤ b.length → r b i = .ok a j → ∃ l, ∀ c,
      (slice (m a) >>= f a) (b ++ c) j = f a l (b ++ c) (j + m a) := by
    intro b i a j hi h
    have hn := fits b i a j hi h
    refine ⟨⟨(b.drop j).take (m a), by rw [List.length_take, List.length_drop]; omega⟩, fun c => ?_⟩
    refine bind_ok ?_
    rw [slice, dif_pos (by rw [List.length_append]; omega)]
    congr 2
    rw [List.drop_append_of_le_length (by omega),
      List.take_append_of_le_length (by rw [List.length_drop]; omega)]
  refine hr.bind_where (fun b i a j hi h => ?_) (fun b i a j hi h d k hd => ?_)
    fun b i a j hi h d k c hd => ?_
  all_goals
    obtain ⟨l, hl⟩ := took b i a j hi h
    have hn := fits b i a j hi h
    have here := hl []
    rw [List.append_nil] at here
  · rw [here]
    exact (hf a l).inside b _ hn
  · rw [here] at hd
    exact (hf a l).limit b _ d k hn hd
  · rw [here] at hd
    rw [hl]
    exact (hf a l).stable b _ d k c hn hd

theorem times {r : Reader β α} (hr : Steady r) : ∀ n, Steady (times r n)
  | 0 => .pure _
  | n + 1 => hr.bind fun _ => (times hr n).bind fun _ => .pure _

end Steady

/-! ## Reading what was written -/

/-- The reader takes `e` for `a` wherever it meets it with `k` items or more behind it. -/
def Reads (k : Nat) (r : Reader β α) (e : List β) (a : α) : Prop :=
  ∀ u t : List β, k ≤ t.length → r (u ++ (e ++ t)) u.length = .ok a (u.length + e.length)

namespace Reads

protected theorem pure (a : α) : Reads 0 (pure a : Reader β α) [] a := fun _ _ _ => rfl

/-- What the first reader asks to follow, the encoding of the second value has to bring. -/
protected theorem bind {r : Reader β α} {f : α → Reader β γ} {k l : Nat} {e d : List β} {a : α}
    {c : γ} (hr : Reads k r e a) (hf : Reads l (f a) d c) (hk : k ≤ d.length + l) :
    Reads l (r >>= f) (e ++ d) c := by
  intro u t ht
  have h := hr u (d ++ t) (by rw [List.length_append]; omega)
  rw [List.append_assoc e, bind_ok h]
  have h' := hf (u ++ e) t ht
  have hstart : (u ++ e).length = u.length + e.length := List.length_append
  have hend : u.length + (e ++ d).length = u.length + e.length + d.length := by
    rw [List.length_append, Nat.add_assoc]
  rw [List.append_assoc, hstart] at h'
  rw [hend]
  exact h'

theorem item (x : β) : Reads 0 item [x] x := by
  intro u t _
  simp [Reader.item]

/-- A value made of the last one that was read. -/
protected theorem map {r : Reader β α} {k : Nat} {e : List β} {a : α} (hr : Reads k r e a)
    (f : α → γ) : Reads k (r >>= fun a => pure (f a)) e (f a) := fun u t ht => bind_ok (hr u t ht)

theorem bounded {r : Reader β α} {e : List β} {a : α} (hr : Reads 0 r e a) (m : α → Nat) :
    Reads (m a) (bounded r m) e a := by
  intro u t ht
  rw [bounded_ok (hr u t (Nat.zero_le _)) (by simp only [List.length_append]; omega),
    if_pos (by simp only [List.length_append]; omega)]

theorem slice {l : List β} {n : Nat} (h : l.length = n) : Reads 0 (slice n) l ⟨l, h⟩ := by
  subst h
  intro u t _
  rw [Reader.slice, dif_pos (by simp only [List.length_append]; omega)]
  simp

theorem times {r : Reader β α} {enc : α → List β} (hr : ∀ a, Reads 0 r (enc a) a) :
    ∀ {l : List α} {n : Nat} (h : l.length = n), Reads 0 (times r n) (l.flatMap enc) ⟨l, h⟩
  | [], _, rfl => Reads.pure _
  | a :: l, _, rfl => by
    rw [List.flatMap_cons]
    exact (hr a).bind ((times hr rfl).map fun m =>
      (⟨a :: m.1, by rw [List.length_cons, m.2]⟩ : { m : List α // m.length = l.length + 1 }))
      (Nat.zero_le _)

end Reads

variable {r : Reader β α} {a : α} {e : List β}

theorem whole_inside (hr : Steady r) (b : List β) : ∃ o, whole r b = .ok o := by
  unfold whole
  cases h : r b 0 with
  | ok a j => exact ⟨_, rfl⟩
  | none => exact ⟨none, rfl⟩
  | outside => exact absurd h (hr.inside b 0 (Nat.zero_le _))

theorem Reads.start (h : Reads 0 r e a) (t : List β) : r (e ++ t) 0 = .ok a e.length := by
  have := h [] t (Nat.zero_le _)
  rwa [List.nil_append, List.length_nil, Nat.zero_add] at this

theorem whole_of_reads (h : Reads 0 r e a) : whole r e = .ok (some a) := by
  have h' := h.start []
  rw [List.append_nil] at h'
  rw [whole, h']
  simp

/-- A value read from the beginning of an encoding would be the value of all of it, and so end
where the whole ends. -/
theorem whole_of_cut {p c : List β} (hr : Steady r) (h : Reads 0 r (p ++ c) a) (hc : c ≠ []) :
    whole r p = .ok none := by
  have hlt : p.length < (p ++ c).length := by
    have := List.length_pos_iff.mpr hc
    rw [List.length_append]
    omega
  unfold whole
  cases hp : r p 0 with
  | ok d j =>
    have hj := hr.limit p 0 d j (Nat.zero_le _) hp
    have hall := hr.stable p 0 d j c (Nat.zero_le _) hp
    have h' := h.start []
    rw [List.append_nil, hall, Got.ok.injEq] at h'
    omega
  | none => rfl
  | outside => exact absurd hp (hr.inside p 0 (Nat.zero_le _))

theorem whole_of_more {c : List β} (h : Reads 0 r e a) (hc : c ≠ []) :
    whole r (e ++ c) = .ok none := by
  have hlt := List.length_pos_iff.mpr hc
  rw [whole, h.start c]
  simp only [List.length_append]
  rw [if_neg (by omega)]

end Reader

end OxlensSfu.Lib
