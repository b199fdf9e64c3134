import SkyEngine.Meta.Interference

/-!
# Meta — Lossless

Integers through `MetaTypeNumber<T>::DynamicCast`, which always goes
through one `double`, and through `Apply`, which converts with it. A value
arrives unchanged exactly when it fits the 53 significant bits of the
double in between.
-/

namespace SkyEngine.Meta

open Binary64 CString Rounding

variable {n : Nat}

theorem castScalar_int (buf : Buffers) (S T : IntType) (v : S.Val) :
    castScalar buf (.int S v) (.number (.int T))
      = (castInt T (.ofInt v)).map fun x => (.int T x, buf) := by
  show (castInt T (.ofInt v) >>= fun x => .ok (Datum.int T x)) >>= (fun x => .ok (x, buf)) = _
  cases castInt T (.ofInt v) with
  | error e => rfl
  | ok x => rfl

/-- **One conversion.** -/
theorem castScalar_int_iff (buf : Buffers) {S T : IntType} (v : S.Val) (hT : T.Holds v) :
    castScalar buf (.int S v) (.number (.int T)) = .ok (.int T ⟨v, hT⟩, buf)
      ↔ Fits 53 v.val.natAbs := by
  rw [← castInt_ofInt_iff hT, castScalar_int]
  constructor
  · intro h
    cases hc : castInt T (.ofInt v) with
    | error e =>
        rw [hc] at h
        cases h
    | ok x =>
        rw [hc] at h
        cases h
        rfl
  · intro h
    rw [h]
    rfl

/-- A fitting integer shown by a parameter of `Apply`. -/
theorem shown_int {S T : IntType} {v : S.Val} (hT : T.Holds v) (hfit : Fits 53 v.val.natAbs)
    (b b' : Buffers) :
    shown b b' (.number (.int T)) (.int S v) = .ok (.int T ⟨v, hT⟩) := by
  rw [shown_number]
  show castInt T (.ofInt v) >>= (fun x => .ok (Datum.int T x)) = _
  rw [(castInt_ofInt_iff hT).mpr hfit]
  rfl

theorem converts_int {S T : IntType} {v : S.Val} (hT : T.Holds v)
    (hfit : Fits 53 v.val.natAbs) : Converts (.number (.int T)) (.int S v) :=
  fun buf => ⟨_, (castScalar_int_iff buf v hT).mpr hfit⟩

/-- A fitting integer among the arguments, the parameter of which shows it
unchanged; the call returns unless another conversion is undefined. -/
theorem apply_int {S T : IntType} {v : S.Val} (hT : T.Holds v) (hfit : Fits 53 v.val.natAbs)
    {order : List (Fin n)} {params : Fin n → ScalarType} {f : MemberFunction n}
    {retval : Retval n} {args : Fin n → Datum} {i : Fin n} (buf : Buffers)
    (hperm : order.Perm (List.finRange n)) (hp : params i = .number (.int T))
    (ha : f.slots retval args i = .int S v) :
    ((∀ k, k ≠ i → Converts (params k) (f.slots retval args k)) →
        ∃ r, apply order params f retval args n buf = .ok r)
      ∧ ∀ r, apply order params f retval args n buf = .ok r → r.seen i = .int T ⟨v, hT⟩ := by
  constructor
  · intro hothers
    refine apply_total (fun k => ?_) order buf
    by_cases hk : k = i
    · subst hk
      rw [hp, ha]
      exact converts_int hT hfit
    · exact hothers k hk
  · intro r hr
    obtain ⟨buf', hcall⟩ := apply_seen.mp ⟨r, hr, rfl⟩
    have hnodup : order.Nodup := hperm.nodup_iff.mpr (List.nodup_finRange n)
    obtain ⟨pre, post, he⟩ := List.append_of_mem (hperm.mem_iff.mpr (List.mem_finRange i))
    have hseen := callArgs_seen hnodup he hcall
    rw [hp, ha, shown_int hT hfit] at hseen
    exact Except.ok.inj hseen

/-- A fitting integer as the result of the callee. -/
theorem apply_int_result {S T : IntType} {v : S.Val} (hT : T.Holds v)
    (hfit : Fits 53 v.val.natAbs) {order : List (Fin n)} {params : Fin n → ScalarType}
    {fn : (Fin n → Datum) → Datum} {retval : Retval n} {args : Fin n → Datum} {buf : Buffers}
    {r : Applied n} (hr : apply order params (.returning fn) retval args n buf = .ok r)
    (hfn : fn r.seen = .int S v) (htype : retval.type = some (.number (.int T))) :
    ∃ buf', r.result = .ok (.int T ⟨v, hT⟩, buf') := by
  simp only [apply, ne_eq, not_true_eq_false, if_false, applyImpl] at hr
  obtain ⟨⟨seen, buf'⟩, _, hret⟩ := bind_ok hr
  cases hret
  refine ⟨buf', ?_⟩
  show castResult buf' (fn seen) retval.type = _
  have hfn' : fn seen = .int S v := hfn
  rw [htype, castResult, hfn']
  exact (castScalar_int_iff buf' v hT).mpr hfit

/-- **Integer conversions are lossless on 53 bits, and only there**; there
`Apply` hands a parameter over and a result back unchanged, whatever the
other arguments are, and returns if their conversions are defined. -/
theorem integers_lossless {S T : IntType} (v : S.Val) (hT : T.Holds v) :
    (∀ buf, castScalar buf (.int S v) (.number (.int T)) = .ok (.int T ⟨v, hT⟩, buf)
        ↔ Fits 53 v.val.natAbs)
      ∧ (Fits 53 v.val.natAbs → (Double.ofInt v).trunc = some v.val
        ∧ (∀ {n : Nat} (order : List (Fin n)) (params : Fin n → ScalarType)
            (f : MemberFunction n) (retval : Retval n) (args : Fin n → Datum) (buf : Buffers)
            (i : Fin n), order.Perm (List.finRange n) → params i = .number (.int T) →
            args i = .int S v → f.slots retval args i = args i →
            ((∀ k, k ≠ i → Converts (params k) (f.slots retval args k)) →
                ∃ r, apply order params f retval args n buf = .ok r)
              ∧ ∀ r, apply order params f retval args n buf = .ok r → r.seen i = .int T ⟨v, hT⟩)
          ∧ ∀ {n : Nat} (order : List (Fin n)) (params : Fin n → ScalarType)
            (fn : (Fin n → Datum) → Datum) (retval : Retval n) (args : Fin n → Datum)
            (buf : Buffers), retval.type = some (.number (.int T)) →
            ((∀ k, Converts (params k) (args k)) →
                ∃ r, apply order params (.returning fn) retval args n buf = .ok r)
              ∧ ∀ r, apply order params (.returning fn) retval args n buf = .ok r →
                fn r.seen = .int S v → ∃ buf', r.result = .ok (.int T ⟨v, hT⟩, buf')) := by
  refine ⟨fun buf => castScalar_int_iff buf v hT,
    fun hfit => ⟨(Double.trunc_ofInt_iff v).mpr hfit, ?_, ?_⟩⟩
  · intro n order params f retval args buf i hperm hp ha hslot
    exact apply_int hT hfit buf hperm hp (hslot.trans ha)
  · intro n order params fn retval args buf htype
    refine ⟨fun hall => @apply_total n params (.returning fn) retval args hall order buf, ?_⟩
    exact fun r hr hfn => apply_int_result hT hfit hr hfn htype

/-- A text and an `int32_t`. -/
def sampleArgs : Fin 2 → Datum
  | 0 => .cstring (.owned [104, 105])
  | 1 => .int .int32 ⟨70000, by decide⟩

/-- `int32_t` 70000 for an `int64_t` parameter, and an `int64_t` result that
goes back as a `uint64_t`. -/
theorem integers_lossless_sample :
    castScalar (fun _ => []) (.int .int32 ⟨70000, by decide⟩) (.number (.int .uint64))
        = .ok (.int .uint64 ⟨70000, by decide⟩, fun _ => [])
      ∧ ∃ r buf', apply [1, 0] (fun i => if i = 0 then .cstring else .number (.int .int64))
          (.returning fun _ => .int .int64 ⟨4900000000, by decide⟩)
          ⟨none, some (.number (.int .uint64))⟩ sampleArgs 2 (fun _ => []) = .ok r
        ∧ r.seen 1 = .int .int64 ⟨70000, by decide⟩
        ∧ r.result = .ok (.int .uint64 ⟨4900000000, by decide⟩, buf') := by
  refine ⟨((integers_lossless (S := .int32) (T := .uint64) ⟨70000, by decide⟩
    (by decide)).1 _).mpr (by decide), ?_⟩
  obtain ⟨_, harg, _⟩ := (integers_lossless (S := .int32) (T := .int64) ⟨70000, by decide⟩
    (by decide)).2 (by decide)
  obtain ⟨_, _, hresult⟩ := (integers_lossless (S := .int64) (T := .uint64)
    ⟨4900000000, by decide⟩ (by decide)).2 (by decide)
  obtain ⟨hreturns, hseen⟩ := harg [1, 0]
    (fun i => if i = 0 then .cstring else .number (.int .int64))
    (.returning fun _ => .int .int64 ⟨4900000000, by decide⟩)
    ⟨none, some (.number (.int .uint64))⟩ sampleArgs (fun _ => []) 1 (by decide) rfl rfl rfl
  obtain ⟨r, hr⟩ := hreturns fun k hk => by
    have hzero : k = 0 := by omega
    subst hzero
    exact fun buf => ⟨_, rfl⟩
  obtain ⟨_, hstored⟩ := hresult [1, 0]
    (fun i => if i = 0 then .cstring else .number (.int .int64))
    (fun _ => .int .int64 ⟨4900000000, by decide⟩)
    ⟨none, some (.number (.int .uint64))⟩ sampleArgs (fun _ => []) rfl
  obtain ⟨buf', hresult'⟩ := hstored r hr rfl
  exact ⟨r, buf', hr, hseen r hr, hresult'⟩

/-- The first `int64_t` a double cannot hold comes back as another one, and
the last is out of range on the way back. -/
theorem int64_not_lossless :
    castScalar (fun _ => []) (.int .int64 ⟨2 ^ 53 + 1, by decide⟩) (.number (.int .int64))
        = .ok (.int .int64 ⟨2 ^ 53, by decide⟩, fun _ => [])
      ∧ castScalar (fun _ => []) (.int .int64 ⟨2 ^ 63 - 1, by decide⟩) (.number (.int .int64))
        = .error .badCast := by
  have hround : castInt .int64 (.ofInt (2 ^ 53 + 1)) = .ok ⟨2 ^ 53, by decide⟩ := by decide
  have hrange : castInt .int64 (.ofInt (2 ^ 63 - 1)) = .error .badCast := by decide
  constructor
  · rw [castScalar_int, hround]
    rfl
  · rw [castScalar_int, hrange]
    rfl

end SkyEngine.Meta
