import SkyEngine.Meta.Apply

/-!
# Meta — Interference

Whether the callee of `Apply` sees its own arguments. Conversions share the
static text buffers, and a void call writes `retval` before the first of
them; a parameter is disturbed exactly when another number's text, or the
void value, would have shown something else.
-/

namespace SkyEngine.Meta

open Function (update update_self update_of_ne)
open Binary64 CString

variable {n : Nat}

/-- **What `Apply` promises**: whatever the order of the conversions, the
callee is entered and each parameter shows the conversion of its own
argument as it stood on entry. -/
def SeesOwnArguments (params : Fin n → ScalarType) (f : MemberFunction n) (retval : Retval n)
    (args : Fin n → Datum) (buf : Buffers) : Prop :=
  ∀ order : List (Fin n), order.Perm (List.finRange n) →
    ∃ r, apply order params f retval args n buf = .ok r
      ∧ ∀ i, alone buf (params i) (args i) = .ok (r.seen i)

/-- Nothing disturbs the arguments: the early store into `retval` does not
change what its slot converts to, and where a parameter reads a static
buffer, every text another argument prints there converts to the same. -/
structure Undisturbed (params : Fin n → ScalarType) (f : MemberFunction n) (retval : Retval n)
    (args : Fin n → Datum) (buf : Buffers) : Prop where
  retval_slot : ∀ j, alone buf (params j) (f.slots retval args j) = alone buf (params j) (args j)
  buffers : ∀ i k m t, i ≠ k → borrows (params i) (f.slots retval args i) = some m →
    prints (params k) (f.slots retval args k) = some (m, t) →
    alone buf (params i) (.cstring (.owned t)) = alone buf (params i) (f.slots retval args i)

/-- The early store touches at most the slot of `retval`. -/
theorem MemberFunction.slots_eq (f : MemberFunction n) (retval : Retval n) (args : Fin n → Datum)
    (j : Fin n) : f.slots retval args j = args j ∨ f.slots retval args j = .obj := by
  cases f with
  | returning fn => exact .inl rfl
  | void =>
      unfold slots clearRetval
      split
      · exact .inl rfl
      · rename_i k _
        by_cases hjk : j = k
        · subst hjk
          exact .inr (update_self _ _ _)
        · exact .inl (update_of_ne hjk _ _)

section Orders

variable {params : Fin n → ScalarType} {args : Fin n → Datum} {buf : Buffers}

/-- A parameter that borrows, converted alone. -/
theorem alone_of_borrows {p : ScalarType} {v : Datum} {m : NumberType} (h : borrows p v = some m)
    (buf : Buffers) :
    alone buf p v = alone buf p (.cstring (.owned (decisive p buf (printed p v buf) m))) :=
  (alone_eq_shown buf p v).trans (shown_of_borrows h buf _ _)

/-- The text a parameter reads in the end is its own, or another
argument's. -/
theorem decisive_content (params : Fin n → ScalarType) (args : Fin n → Datum) (buf : Buffers)
    {order pre post : List (Fin n)} {i : Fin n}
    (hnodup : order.Nodup) (he : order = pre ++ i :: post) (m : NumberType) :
    decisive (params i) (buffersAfter params args pre buf) (buffersAfter params args order buf) m
        = decisive (params i) buf (printed (params i) (args i) buf) m
      ∨ ∃ k, i ≠ k ∧ prints (params k) (args k) = some (m, decisive (params i)
          (buffersAfter params args pre buf) (buffersAfter params args order buf) m) := by
  have hi : i ∈ order := by simp [he]
  have hpre : i ∉ pre := by
    rw [he] at hnodup
    intro hm
    exact List.disjoint_of_nodup_append hnodup hm List.mem_cons_self
  cases hp : params i with
  | cstring =>
      -- read by the callee, after every conversion
      rcases buffersAfter_content params args order buf m with ⟨k, _, hk⟩ | ⟨hnone, hkeep⟩
      · by_cases hik : i = k
        · subst hik
          left
          show _ = printed _ _ _ m
          rw [hp] at hk
          simp [printed, hk, decisive]
        · exact .inr ⟨k, hik, hk⟩
      · left
        have hown := hnone i hi
        rw [hp] at hown
        show buffersAfter params args order buf m = printed _ _ _ m
        rw [hkeep, printed]
        cases hw : prints .cstring (args i) with
        | none => rfl
        | some w =>
            obtain ⟨m', t⟩ := w
            have hne : m ≠ m' := by
              intro hm
              subst hm
              exact hown t hw
            exact (update_of_ne hne _ _).symm
  | _ =>
      -- read at its conversion, after those of `pre`
      rcases buffersAfter_content params args pre buf m with ⟨k, hk, hprint⟩ | ⟨_, hkeep⟩
      · refine .inr ⟨k, ?_, hprint⟩
        intro hik
        subst hik
        exact hpre hk
      · exact .inl hkeep

/-- When every text printed into a borrowed buffer converts to the same,
the order does not matter. -/
theorem shown_undisturbed
    (hbuf : ∀ i k m t, i ≠ k → borrows (params i) (args i) = some m →
      prints (params k) (args k) = some (m, t) →
      alone buf (params i) (.cstring (.owned t)) = alone buf (params i) (args i))
    {order pre post : List (Fin n)} {i : Fin n} (hnodup : order.Nodup)
    (he : order = pre ++ i :: post) :
    shown (buffersAfter params args pre buf) (buffersAfter params args order buf) (params i)
      (args i) = alone buf (params i) (args i) := by
  cases hb : borrows (params i) (args i) with
  | none => exact shown_of_not_borrows hb buf _ _
  | some m =>
      rw [shown_of_borrows hb buf]
      rcases decisive_content params args buf hnodup he m with hown | ⟨k, hik, hk⟩
      · rw [hown, ← alone_of_borrows hb buf]
      · exact hbuf i k m _ hik hb hk

end Orders

/-- **Undisturbed arguments arrive.** -/
theorem Undisturbed.sees {params : Fin n → ScalarType} {f : MemberFunction n}
    {retval : Retval n} {args : Fin n → Datum} {buf : Buffers}
    (h : Undisturbed params f retval args buf)
    (hdef : ∀ i, ∃ v, alone buf (params i) (args i) = .ok v) :
    SeesOwnArguments params f retval args buf := by
  intro order hperm
  have hnodup : order.Nodup := hperm.nodup_iff.mpr (List.nodup_finRange n)
  have hshown : ∀ pre i post, order = pre ++ i :: post →
      shown (buffersAfter params (f.slots retval args) pre buf)
        (buffersAfter params (f.slots retval args) order buf) (params i)
        (f.slots retval args i) = alone buf (params i) (args i) := by
    intro pre i post he
    rw [shown_undisturbed h.buffers hnodup he, h.retval_slot i]
  obtain ⟨⟨vals, buf'⟩, hconv⟩ :
      ∃ r, convertArgs params (f.slots retval args) order (fun _ => .obj) buf = .ok r := by
    refine convertArgs_total _ fun pre i post he => ?_
    obtain ⟨v, hv⟩ := hdef i
    have hok := (hshown pre i post he).trans hv
    cases hc : convertArg (buffersAfter params (f.slots retval args) pre buf) (params i)
        (f.slots retval args i) with
    | ok r => exact ⟨r, rfl⟩
    | error e =>
        rw [shown, hc] at hok
        cases hok
  have hcall : callArgs order params (f.slots retval args) buf
      = .ok (fun i => (vals i).deref buf', buf') := by
    rw [callArgs, hconv]
    rfl
  obtain ⟨r, hr, hseen⟩ := apply_seen.mpr ⟨buf', hcall⟩
  refine ⟨r, hr, fun i => ?_⟩
  have hi : i ∈ order := hperm.mem_iff.mpr (List.mem_finRange i)
  obtain ⟨pre, post, he⟩ := List.append_of_mem hi
  rw [← hshown pre i post he, hseen]
  exact (callArgs_seen hnodup he hcall).symm

/-- **Arguments that always arrive are undisturbed.** -/
theorem undisturbed_of_sees {params : Fin n → ScalarType} {f : MemberFunction n}
    {retval : Retval n} {args : Fin n → Datum} {buf : Buffers}
    (h : SeesOwnArguments params f retval args buf) : Undisturbed params f retval args buf := by
  -- what one order shows
  have hseen : ∀ order pre i post, order.Perm (List.finRange n) → order = pre ++ i :: post →
      alone buf (params i) (args i)
        = shown (buffersAfter params (f.slots retval args) pre buf)
            (buffersAfter params (f.slots retval args) order buf) (params i)
            (f.slots retval args i) := by
    intro order pre i post hperm he
    obtain ⟨r, hr, hown⟩ := h order hperm
    obtain ⟨buf', hcall⟩ := apply_seen.mp ⟨r, hr, rfl⟩
    have hnodup : order.Nodup := hperm.nodup_iff.mpr (List.nodup_finRange n)
    rw [hown i]
    exact callArgs_seen hnodup he hcall
  have hslot : ∀ j, alone buf (params j) (f.slots retval args j)
      = alone buf (params j) (args j) := by
    intro j
    rcases f.slots_eq retval args j with hsame | hobj
    · rw [hsame]
    · obtain ⟨pre, post, he⟩ := List.append_of_mem (List.mem_finRange j)
      have hb : borrows (params j) .obj = none := by cases params j <;> rfl
      rw [hseen _ pre j post (List.Perm.refl _) he, hobj, shown_of_not_borrows hb buf]
  constructor
  case retval_slot => exact hslot
  case buffers =>
    intro i k m t hik hb hprint
    have hkeep : ∀ b, printed (params k) (f.slots retval args k) b m = t := by
      intro b
      simp [printed, hprint]
    rw [hslot i]
    have hk : k ∈ List.finRange n := List.mem_finRange k
    have hi : i ∈ (List.finRange n).erase k := (List.mem_erase_of_ne hik).mpr (List.mem_finRange i)
    cases hp : params i with
    | cstring =>
        -- let `k` print last
        have hperm : ((List.finRange n).erase k ++ [k]).Perm (List.finRange n) :=
          (List.perm_append_singleton k _).trans (List.perm_cons_erase hk).symm
        obtain ⟨pre, post, he⟩ := List.append_of_mem hi
        have hshown := hseen _ pre i (post ++ [k]) hperm (by rw [he]; simp)
        rw [shown_of_borrows hb buf, hp] at hshown
        have hlast : buffersAfter params (f.slots retval args) ((List.finRange n).erase k ++ [k])
            buf m = t := by
          rw [buffersAfter, List.foldl_append]
          exact hkeep _
        rw [hshown]
        show _ = alone buf .cstring (.cstring (.owned (buffersAfter _ _ _ buf m)))
        rw [hlast]
    | _ =>
        -- let `k` print just before `i` is converted
        have hperm : (k :: i :: ((List.finRange n).erase k).erase i).Perm (List.finRange n) :=
          ((List.perm_cons_erase hi).symm.cons k).trans (List.perm_cons_erase hk).symm
        have hshown := hseen _ [k] i _ hperm rfl
        rw [shown_of_borrows hb buf, hp] at hshown
        rw [hshown]
        show _ = alone buf _ (.cstring (.owned (printed (params k) (f.slots retval args k) buf m)))
        rw [hkeep]

/-- **When `Apply` hands over the right arguments**: exactly when nothing
disturbs them. -/
theorem seesOwnArguments_iff (params : Fin n → ScalarType) (f : MemberFunction n)
    (retval : Retval n) (args : Fin n → Datum) (buf : Buffers)
    (hdef : ∀ i, ∃ v, alone buf (params i) (args i) = .ok v) :
    SeesOwnArguments params f retval args buf ↔ Undisturbed params f retval args buf :=
  ⟨undisturbed_of_sees, fun h => h.sees hdef⟩

/-! ## At a sample -/

/-- Two `int32_t` arguments. -/
def samplePair (x y : IntType.int32.Val) : Fin 2 → Datum :=
  fun i => .int .int32 (if i = 0 then x else y)

/-- `f(int32_t, const char *)` called with two numbers: the one text has
its buffer to itself. -/
theorem seesOwnArguments_sample :
    SeesOwnArguments (fun i => if i = 0 then .number (.int .int32) else .cstring) .void
      ⟨none, none⟩ (samplePair ⟨1, by decide⟩ ⟨2, by decide⟩) (fun _ => []) := by
  refine (seesOwnArguments_iff (n := 2) _ _ _ _ _ fun i => ?_).mpr ?_
  · match i with
    | 0 => exact ⟨.int .int32 ⟨1, by decide⟩, rfl⟩
    | 1 => exact ⟨.cstring (.owned (ascii ['2'])), rfl⟩
  · constructor
    case retval_slot => exact fun j => rfl
    case buffers =>
      intro i k m t hik hb hprint
      match i, k with
      | 0, _ => cases hb
      | 1, 0 => cases hprint
      | 1, 1 => exact absurd rfl hik

/-- `f(const char *, const char *)` called with the numbers 1 and 2: both
texts are printed into the buffer of `int32_t`, and the callee reads "2"
twice. -/
theorem two_texts_one_buffer :
    (∃ r, apply [0, 1] (fun _ => .cstring) .void ⟨none, none⟩
        (samplePair ⟨1, by decide⟩ ⟨2, by decide⟩) 2 (fun _ => []) = .ok r
      ∧ r.seen 0 = .cstring (.owned (ascii ['2'])))
    ∧ alone (fun _ => []) .cstring (samplePair ⟨1, by decide⟩ ⟨2, by decide⟩ 0)
        = .ok (.cstring (.owned (ascii ['1'])))
    ∧ ¬ SeesOwnArguments (fun _ => .cstring) .void ⟨none, none⟩
        (samplePair ⟨1, by decide⟩ ⟨2, by decide⟩) (fun _ => []) := by
  have hone : alone (fun _ => []) .cstring (samplePair ⟨1, by decide⟩ ⟨2, by decide⟩ 0)
      = .ok (.cstring (.owned (ascii ['1']))) := rfl
  have htwo : ∃ r, apply [0, 1] (fun _ => .cstring) .void ⟨none, none⟩
      (samplePair ⟨1, by decide⟩ ⟨2, by decide⟩) 2 (fun _ => []) = .ok r
        ∧ r.seen 0 = .cstring (.owned (ascii ['2'])) := ⟨_, rfl, rfl⟩
  refine ⟨htwo, hone, fun h => ?_⟩
  obtain ⟨r, hr, hzero⟩ := htwo
  obtain ⟨r', hr', hseen⟩ := h [0, 1] (by decide)
  cases Except.ok.inj (hr'.symm.trans hr)
  have hsame := (hseen 0).symm.trans hone
  rw [hzero] at hsame
  revert hsame
  decide

end SkyEngine.Meta
