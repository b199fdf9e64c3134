import SkyEngine.Meta.Scalar
import Mathlib.Data.List.FinRange

/-!
# Meta — Apply

`Apply` (`Base/Meta.hpp`): a member function called through type-erased
arguments. Each argument is converted inline, as part of the call
expression, so C++ leaves the order of the conversions open: it is an
argument here, `order`.
-/

namespace SkyEngine.Meta

open Function (update)
open Binary64 CString

variable {n : Nat}

/-! ## The call -/

/-- `ConvertArg<Arg>`. -/
def convertArg (buf : Buffers) (arg : ScalarType) (v : Datum) : Except Fault (Datum × Buffers) :=
  castScalar buf v arg

/-- The conversions one after another; `vals` are the parameters so far. -/
def convertArgs (params : Fin n → ScalarType) (args : Fin n → Datum) :
    List (Fin n) → (Fin n → Datum) → Buffers → Except Fault ((Fin n → Datum) × Buffers)
  | [], vals, buf => .ok (vals, buf)
  | i :: rest, vals, buf => do
      let (v, buf) ← convertArg buf (params i) (args i)
      convertArgs params args rest (update vals i v) buf

/-- What a parameter shows to code that runs now: of a `cstring`, the text
it points to. -/
def Datum.deref (buf : Buffers) : Datum → Datum
  | .cstring (.owned s) => .cstring (.owned (cText s))
  | .cstring (.buffer m) => .cstring (.owned (cText (buf m)))
  | v => v

/-- The parameters the callee sees, and the buffers it starts with. -/
def callArgs (order : List (Fin n)) (params : Fin n → ScalarType) (args : Fin n → Datum)
    (buf : Buffers) : Except Fault ((Fin n → Datum) × Buffers) := do
  let (vals, buf) ← convertArgs params args order (fun _ => .obj) buf
  .ok (fun i => (vals i).deref buf, buf)

/-- The `retval` slot: which argument slot it is, if any, and its metatype
(`none` for a class). -/
structure Retval (n : Nat) where
  slot : Option (Fin n)
  type : Option ScalarType

/-- A call that reached the callee: what the callee saw, and how storing
its result went. -/
structure Applied (n : Nat) where
  seen : Fin n → Datum
  result : Except Fault (Datum × Buffers)

/-- `retval->type->DynamicCast` of a scalar result; a class stores null. -/
def castResult (buf : Buffers) (ret : Datum) : Option ScalarType → Except Fault (Datum × Buffers)
  | none => .ok (.obj, buf)
  | some t => castScalar buf ret t

/-- `ApplyImpl`. -/
def applyImpl (order : List (Fin n)) (params : Fin n → ScalarType) (fn : (Fin n → Datum) → Datum)
    (retval : Retval n) (args : Fin n → Datum) (buf : Buffers) : Except Fault (Applied n) := do
  let (seen, buf) ← callArgs order params args buf
  .ok ⟨seen, castResult buf (fn seen) retval.type⟩

/-- `retval->value = nullptr; retval->type = GetMetaType();` as the
argument list sees it. -/
def clearRetval (retval : Retval n) (args : Fin n → Datum) : Fin n → Datum :=
  match retval.slot with
  | none => args
  | some j => update args j .obj

/-- `ApplyVoidImpl`: `retval` is written first. -/
def applyVoidImpl (order : List (Fin n)) (params : Fin n → ScalarType) (retval : Retval n)
    (args : Fin n → Datum) (buf : Buffers) : Except Fault (Applied n) := do
  let (seen, buf) ← callArgs order params (clearRetval retval args) buf
  .ok ⟨seen, .ok (.obj, buf)⟩

/-- A member function as far as the call is concerned. -/
inductive MemberFunction (n : Nat) where
  | void
  | returning (fn : (Fin n → Datum) → Datum)

/-- `Apply`. -/
def apply (order : List (Fin n)) (params : Fin n → ScalarType) (f : MemberFunction n)
    (retval : Retval n) (args : Fin n → Datum) (argCount : Nat) (buf : Buffers) :
    Except Fault (Applied n) :=
  if n ≠ argCount then .error .assertion
  else
    match f with
    | .void => applyVoidImpl order params retval args buf
    | .returning fn => applyImpl order params fn retval args buf

/-- The argument slots at the time of the conversions. -/
def MemberFunction.slots (f : MemberFunction n) (retval : Retval n) (args : Fin n → Datum) :
    Fin n → Datum :=
  match f with
  | .void => clearRetval retval args
  | .returning _ => args

/-- The callee is entered exactly when all conversions go through. -/
theorem apply_seen {order : List (Fin n)} {params : Fin n → ScalarType} {f : MemberFunction n}
    {retval : Retval n} {args : Fin n → Datum} {buf : Buffers} {seen : Fin n → Datum} :
    (∃ r, apply order params f retval args n buf = .ok r ∧ r.seen = seen)
      ↔ ∃ buf', callArgs order params (f.slots retval args) buf = .ok (seen, buf') := by
  cases f with
  | void =>
      simp only [apply, ne_eq, not_true_eq_false, if_false, applyVoidImpl, MemberFunction.slots]
      cases callArgs order params (clearRetval retval args) buf with
      | error e => simp [bind, Except.bind]
      | ok p => simp [bind, Except.bind, Prod.ext_iff]
  | returning fn =>
      simp only [apply, ne_eq, not_true_eq_false, if_false, applyImpl, MemberFunction.slots]
      cases callArgs order params args buf with
      | error e => simp [bind, Except.bind]
      | ok p => simp [bind, Except.bind, Prod.ext_iff]

/-! ## One conversion -/

/-- What a conversion prints into a static buffer. -/
def prints (p : ScalarType) (v : Datum) : Option (NumberType × Bytes) :=
  match p, v with
  | .cstring, .int t x => some (.int t, (formatG (.ofInt x)).take 64)
  | .cstring, .float x => some (.float, (formatG x).take 64)
  | .cstring, .double x => some (.double, (formatG x).take 64)
  | .tgcString, .int t x => some (.int t, (formatG (.ofInt x)).take 64)
  | .tgcString, .float x => some (.float, (formatG x).take 64)
  | .tgcString, .double x => some (.double, (formatG x).take 64)
  | _, _ => none

/-- The buffers after it. -/
def printed (p : ScalarType) (v : Datum) (buf : Buffers) : Buffers :=
  match prints p v with
  | none => buf
  | some (m, t) => update buf m t

/-- The static buffer the parameter's text is read from: that of the number
printed for a `cstring`, or the one a `cstring` argument already points
to. -/
def borrows : ScalarType → Datum → Option NumberType
  | .cstring, v =>
      match v with
      | .cstring (.buffer m) => some m
      | v => v.numberType
  | _, .cstring (.buffer m) => some m
  | _, _ => none

/-- A parameter converted with one state of the buffers and looked at with
another. -/
def shown (b b' : Buffers) (p : ScalarType) (v : Datum) : Except Fault Datum :=
  (convertArg b p v).map fun r => r.1.deref b'

/-- **The conversion on its own**: what the callee would see if this were
the only argument. -/
def alone (buf : Buffers) (p : ScalarType) (v : Datum) : Except Fault Datum :=
  (convertArg buf p v).map fun r => r.1.deref r.2

theorem convertArg_buffers {buf buf' : Buffers} {p : ScalarType} {v a : Datum}
    (h : convertArg buf p v = .ok (a, buf')) : buf' = printed p v buf := by
  cases p with
  | bool =>
      obtain ⟨num, _, hret⟩ := bind_ok h
      cases hret
      rfl
  | number m =>
      obtain ⟨num, _, h⟩ := bind_ok h
      obtain ⟨x, _, hret⟩ := bind_ok h
      cases hret
      rfl
  | cstring =>
      cases v <;> cases h <;> rfl
  | tgcString =>
      obtain ⟨text, _, hret⟩ := bind_ok h
      cases v <;> cases hret <;> rfl

theorem alone_eq_shown (buf : Buffers) (p : ScalarType) (v : Datum) :
    alone buf p v = shown buf (printed p v buf) p v := by
  unfold alone shown
  cases h : convertArg buf p v with
  | error e => rfl
  | ok r =>
      rw [← convertArg_buffers h]
      rfl

/-- Which state of the buffers decides: a `cstring` is read by the callee,
everything else at its conversion. -/
def decisive (p : ScalarType) (b b' : Buffers) : Buffers :=
  match p with
  | .cstring => b'
  | _ => b

theorem castNumber_deref {num : Double} {q : NumberType} {x : Datum}
    (h : castNumber num q = .ok x) (b : Buffers) : x.deref b = x := by
  cases q with
  | int t =>
      obtain ⟨v, _, hret⟩ := bind_ok h
      cases hret
      rfl
  | float =>
      cases h
      rfl
  | double =>
      cases h
      rfl

/-- A number parameter shows the number at its conversion. -/
theorem shown_number (b b' : Buffers) (q : NumberType) (v : Datum) :
    shown b b' (.number q) v = v.toNumber b >>= fun num => castNumber num q := by
  show Except.map _ (v.toNumber b >>= fun num => castNumber num q >>= fun x => .ok (x, b)) = _
  cases v.toNumber b with
  | error e => rfl
  | ok num =>
      show Except.map _ (castNumber num q >>= fun x => .ok (x, b)) = castNumber num q
      cases hx : castNumber num q with
      | error e => rfl
      | ok x => exact congrArg Except.ok (castNumber_deref hx b')

/-- A `std::string` parameter shows the text at its conversion. -/
theorem shown_tgcString (b b' : Buffers) (v : Datum) :
    shown b b' .tgcString v
      = ((v.toText b).1.read (v.toText b).2).map fun text => .tgcString text := by
  show Except.map _ ((v.toText b).1.read (v.toText b).2 >>= fun text => .ok _) = _
  cases (v.toText b).1.read (v.toText b).2 with
  | error e => rfl
  | ok text => rfl

theorem shown_bool (b b' : Buffers) (v : Datum) :
    shown b b' .bool v = (v.toNumber b).map fun num => .bool num.isNonzero := by
  show Except.map _ (v.toNumber b >>= fun num => .ok _) = _
  cases v.toNumber b with
  | error e => rfl
  | ok num => rfl

/-- What refers to no buffer reads the same whatever is in them. -/
theorem read_unshared {v : Datum} (hv : ∀ m, v ≠ .cstring (.buffer m)) (b b' : Buffers) :
    v.toNumber b = v.toNumber b'
      ∧ (v.toText b).1.read (v.toText b).2 = (v.toText b').1.read (v.toText b').2 := by
  cases v with
  | cstring s =>
      cases s with
      | buffer m => exact absurd rfl (hv m)
      | _ => exact ⟨rfl, rfl⟩
  | _ => simp [Datum.toNumber, Datum.toText, Datum.printNumber, TextRef.read]

/-- A parameter that borrows shows the text of its buffer. -/
theorem shown_of_borrows {p : ScalarType} {v : Datum} {m : NumberType}
    (h : borrows p v = some m) (buf b b' : Buffers) :
    shown b b' p v = alone buf p (.cstring (.owned (decisive p b b' m))) := by
  cases p with
  | cstring =>
      cases v with
      | cstring s =>
          cases s with
          | buffer k =>
              cases h
              rfl
          | _ => cases h
      | int t x =>
          cases h
          rfl
      | float x =>
          cases h
          rfl
      | double x =>
          cases h
          rfl
      | _ => cases h
  | _ =>
      cases v with
      | cstring s =>
          cases s with
          | buffer k =>
              cases h
              rw [alone_eq_shown]
              first
              | rw [shown_number, shown_number]; rfl
              | rfl
          | _ => cases h
      | _ => cases h

/-- A parameter that borrows from no buffer shows the same whatever is in
them. -/
theorem shown_of_not_borrows {p : ScalarType} {v : Datum} (h : borrows p v = none)
    (buf b b' : Buffers) : shown b b' p v = alone buf p v := by
  rw [alone_eq_shown]
  cases p with
  | cstring =>
      cases v with
      | cstring s =>
          cases s with
          | buffer k => cases h
          | _ => rfl
      | int t x => cases h
      | float x => cases h
      | double x => cases h
      | _ => rfl
  | number q =>
      have hv : ∀ m, v ≠ .cstring (.buffer m) := by
        rintro m rfl
        cases h
      rw [shown_number, shown_number, (read_unshared hv b buf).1]
  | bool =>
      have hv : ∀ m, v ≠ .cstring (.buffer m) := by
        rintro m rfl
        cases h
      rw [shown_bool, shown_bool, (read_unshared hv b buf).1]
  | tgcString =>
      have hv : ∀ m, v ≠ .cstring (.buffer m) := by
        rintro m rfl
        cases h
      rw [shown_tgcString, shown_tgcString, (read_unshared hv b buf).2]

/-! ## All conversions -/

/-- The buffers after the conversions of `l`. -/
def buffersAfter (params : Fin n → ScalarType) (args : Fin n → Datum) (l : List (Fin n))
    (buf : Buffers) : Buffers :=
  l.foldl (fun b k => printed (params k) (args k) b) buf

/-- **What is in a buffer afterwards**: the text somebody in `l` printed
there, or the old text and nobody printed. -/
theorem buffersAfter_content (params : Fin n → ScalarType) (args : Fin n → Datum)
    (l : List (Fin n)) (buf : Buffers) (m : NumberType) :
    (∃ k ∈ l, prints (params k) (args k) = some (m, buffersAfter params args l buf m))
      ∨ (∀ k ∈ l, ∀ t, prints (params k) (args k) ≠ some (m, t))
        ∧ buffersAfter params args l buf m = buf m := by
  induction l generalizing buf with
  | nil => exact .inr ⟨by simp, rfl⟩
  | cons k rest ih =>
      rcases ih (printed (params k) (args k) buf) with ⟨j, hj, hprint⟩ | ⟨hnone, hkeep⟩
      · exact .inl ⟨j, List.mem_cons_of_mem _ hj, hprint⟩
      · have hstep : buffersAfter params args (k :: rest) buf m
            = printed (params k) (args k) buf m := hkeep
        rw [hstep]
        cases hp : prints (params k) (args k) with
        | none =>
            refine .inr ⟨fun j hj t => ?_, by simp [printed, hp]⟩
            rcases List.mem_cons.mp hj with rfl | hj
            · simp [hp]
            · exact hnone j hj t
        | some w =>
            obtain ⟨m', t⟩ := w
            by_cases hm : m' = m
            · subst hm
              exact .inl ⟨k, List.mem_cons_self, by simp [printed, hp]⟩
            · refine .inr ⟨fun j hj t' => ?_, by simp [printed, hp, Ne.symm hm]⟩
              rcases List.mem_cons.mp hj with rfl | hj
              · intro he
                rw [hp] at he
                cases he
                exact hm rfl
              · exact hnone j hj t'

/-- A run of conversions, each done on the buffers its predecessors left. -/
theorem convertArgs_spec {params : Fin n → ScalarType} {args : Fin n → Datum}
    {order : List (Fin n)} {vals vals' : Fin n → Datum} {buf buf' : Buffers}
    (hnodup : order.Nodup) (h : convertArgs params args order vals buf = .ok (vals', buf')) :
    buf' = buffersAfter params args order buf
      ∧ (∀ i, i ∉ order → vals' i = vals i)
      ∧ ∀ pre i post, order = pre ++ i :: post →
        ∃ b, convertArg (buffersAfter params args pre buf) (params i) (args i)
          = .ok (vals' i, b) := by
  induction order generalizing vals buf with
  | nil =>
      cases h
      refine ⟨rfl, fun i _ => rfl, fun pre i post he => ?_⟩
      simp at he
  | cons k rest ih =>
      obtain ⟨⟨v, b⟩, hk, hrest⟩ := bind_ok h
      obtain ⟨hnot, hnodup'⟩ := List.nodup_cons.mp hnodup
      obtain ⟨hbuf, hkeep, hconv⟩ := ih hnodup' hrest
      have hb := convertArg_buffers hk
      subst hb
      refine ⟨hbuf, fun i hi => ?_, fun pre i post he => ?_⟩
      · have hik : i ≠ k := fun he => hi (by simp [he])
        have hirest : i ∉ rest := fun hm => hi (List.mem_cons_of_mem _ hm)
        rw [hkeep i hirest, Function.update_of_ne hik]
      · cases pre with
        | nil =>
            obtain ⟨rfl, rfl⟩ := List.cons.inj he
            rw [hkeep _ hnot, Function.update_self]
            exact ⟨_, hk⟩
        | cons j pre' =>
            obtain ⟨rfl, he'⟩ := List.cons.inj he
            exact hconv pre' i post he'

theorem convertArgs_total {params : Fin n → ScalarType} {args : Fin n → Datum}
    {order : List (Fin n)} (vals : Fin n → Datum) {buf : Buffers}
    (h : ∀ pre i post, order = pre ++ i :: post →
      ∃ r, convertArg (buffersAfter params args pre buf) (params i) (args i) = .ok r) :
    ∃ r, convertArgs params args order vals buf = .ok r := by
  induction order generalizing vals buf with
  | nil => exact ⟨_, rfl⟩
  | cons k rest ih =>
      obtain ⟨⟨v, b⟩, hk⟩ := h [] k rest rfl
      have hk' : convertArg buf (params k) (args k) = .ok (v, b) := hk
      have hb := convertArg_buffers hk'
      subst hb
      obtain ⟨r, hr⟩ := ih (update vals k v) fun pre i post he =>
        h (k :: pre) i post (by rw [he]; rfl)
      refine ⟨r, ?_⟩
      rw [convertArgs, hk']
      exact hr

/-- The conversion is defined, whatever is in the static buffers. -/
def Converts (p : ScalarType) (v : Datum) : Prop := ∀ buf, ∃ r, convertArg buf p v = .ok r

/-- **`Apply` returns** when every conversion is defined. -/
theorem apply_total {params : Fin n → ScalarType} {f : MemberFunction n} {retval : Retval n}
    {args : Fin n → Datum} (h : ∀ k, Converts (params k) (f.slots retval args k))
    (order : List (Fin n)) (buf : Buffers) :
    ∃ r, apply order params f retval args n buf = .ok r := by
  have hconv : ∃ r, convertArgs params (f.slots retval args) order (fun _ => .obj) buf = .ok r :=
    convertArgs_total _ fun pre i _ _ => h i (buffersAfter params (f.slots retval args) pre buf)
  obtain ⟨⟨vals, buf'⟩, hconv⟩ := hconv
  have hcall : callArgs order params (f.slots retval args) buf
      = .ok (fun i => (vals i).deref buf', buf') := by
    rw [callArgs, hconv]
    rfl
  obtain ⟨r, hr, _⟩ := apply_seen.mpr ⟨buf', hcall⟩
  exact ⟨r, hr⟩

/-- **What the callee sees**, for one order of the conversions. -/
theorem callArgs_seen {params : Fin n → ScalarType} {args : Fin n → Datum}
    {order pre post : List (Fin n)} {i : Fin n} {buf buf' : Buffers} {seen : Fin n → Datum}
    (hnodup : order.Nodup) (he : order = pre ++ i :: post)
    (h : callArgs order params args buf = .ok (seen, buf')) :
    .ok (seen i) = shown (buffersAfter params args pre buf) (buffersAfter params args order buf)
      (params i) (args i) := by
  obtain ⟨⟨vals, b⟩, hconv, hret⟩ := bind_ok h
  cases hret
  obtain ⟨rfl, _, hspec⟩ := convertArgs_spec hnodup hconv
  obtain ⟨b', hi⟩ := hspec pre i post he
  rw [shown, hi]
  rfl

end SkyEngine.Meta
