import ShrikeDb.Server.Deadlines
import ShrikeDb.Server.Dispatch
import ShrikeDb.Server.Requests

/-! `SET` with any list of options. The handler looks its key up as often as the options
ask for it, and leaves the deadline to a table that the write of the value does not touch;
what it does to the key depends on the options read as a whole, on the clock and on the
cell of the key. -/

namespace ShrikeDb

open Program Command ReplyBuilder CommandRegistry StringFamily Function

variable {F : Type}

/-! ## Options -/

inductive SetOption
  | nx
  | xx
  | get
  | keepTtl
  | expiry (unit : UInt64) (absolute : Bool) (n : UInt64)
  deriving DecidableEq

namespace SetOption

/-- What an option adds to those read before it. -/
def apply (o : SetOptions) : SetOption → SetOptions
  | nx => { o with nx := true }
  | xx => { o with xx := true }
  | get => { o with get := true }
  | keepTtl => { o with keepTtl := true }
  | expiry unit absolute n => { o with expireMs := some (n * unit), expireAbsolute := absolute }

/-- The deadline an option asks for. -/
def deadline (now : UInt64) : SetOption → Option UInt64
  | expiry unit absolute n => some (if absolute then n * unit else now + n * unit)
  | _ => none

end SetOption

variable (now : UInt64)

/-- The deadline the options ask for: that of the last expiry option. -/
def givenDeadline (opts : List SetOption) : Option UInt64 :=
  (opts.filterMap (SetOption.deadline now)).getLast?

def optionWord (w : RespExpr) : Bytes := toUppercase (w.asStr.getD [])

/-- The words are these options, in any case of letters. -/
inductive OptionsRead : List RespExpr → List SetOption → Prop
  | nil : OptionsRead [] []
  | nx {w words opts} (hw : optionWord w = ascii "NX") (h : OptionsRead words opts) :
      OptionsRead (w :: words) (.nx :: opts)
  | xx {w words opts} (hw : optionWord w = ascii "XX") (h : OptionsRead words opts) :
      OptionsRead (w :: words) (.xx :: opts)
  | get {w words opts} (hw : optionWord w = ascii "GET") (h : OptionsRead words opts) :
      OptionsRead (w :: words) (.get :: opts)
  | keepTtl {w words opts} (hw : optionWord w = ascii "KEEPTTL") (h : OptionsRead words opts) :
      OptionsRead (w :: words) (.keepTtl :: opts)
  | expiry {w b words opts unit absolute n}
      (hw : expiryOption (optionWord w) = some (unit, absolute)) (hb : b.asPositiveInt = some n)
      (h : OptionsRead words opts) :
      OptionsRead (w :: b :: words) (.expiry unit absolute n :: opts)

theorem setOptions_cons (w : RespExpr) (rest : List RespExpr) (o : SetOptions) :
    setOptions (w :: rest) o =
      if optionWord w = ascii "NX" then setOptions rest { o with nx := true }
      else if optionWord w = ascii "XX" then setOptions rest { o with xx := true }
      else if optionWord w = ascii "GET" then setOptions rest { o with get := true }
      else if optionWord w = ascii "KEEPTTL" then setOptions rest { o with keepTtl := true }
      else
        match expiryOption (optionWord w), rest with
        | some _, [] => .error notAnInteger
        | some (unit, absolute), b :: rest =>
          match b.asPositiveInt with
          | some n => setOptions rest { o with expireMs := some (n * unit), expireAbsolute :=
              absolute }
          | none => .error notAnInteger
        | none, _ => .error (sendErr (ascii "syntax error")) := by
  rw [setOptions.eq_def]
  rfl

theorem setOptions_of_read {words : List RespExpr} {opts : List SetOption}
    (h : OptionsRead words opts) (o : SetOptions) :
    setOptions words o = .ok (opts.foldl SetOption.apply o) := by
  have hne : ascii "XX" ≠ ascii "NX" ∧ ascii "GET" ≠ ascii "NX" ∧ ascii "GET" ≠ ascii "XX" ∧
      ascii "KEEPTTL" ≠ ascii "NX" ∧ ascii "KEEPTTL" ≠ ascii "XX" ∧
      ascii "KEEPTTL" ≠ ascii "GET" := by
    decide
  have hflags : ∀ name ∈ [ascii "NX", ascii "XX", ascii "GET", ascii "KEEPTTL"],
      expiryOption name = none := by
    decide
  induction h generalizing o with
  | nil => rfl
  | nx hw _ ih =>
    rw [setOptions_cons, hw, if_pos rfl]
    exact ih _
  | xx hw _ ih =>
    simp only [setOptions_cons, hw, hne, if_false, if_true]
    exact ih _
  | get hw _ ih =>
    simp only [setOptions_cons, hw, hne, if_false, if_true]
    exact ih _
  | keepTtl hw _ ih =>
    simp only [setOptions_cons, hw, hne, if_false, if_true]
    exact ih _
  | @expiry w b words opts unit absolute n hw hb _ ih =>
    have hnot : ∀ name ∈ [ascii "NX", ascii "XX", ascii "GET", ascii "KEEPTTL"], optionWord w ≠
        name := by
      intro name hname heq
      rw [heq, hflags name hname] at hw
      cases hw
    simp only [List.mem_cons, List.not_mem_nil, or_false, forall_eq_or_imp, forall_eq] at hnot
    simp only [setOptions_cons, hnot, if_false, hw, hb]
    exact ih _

theorem setOptions_cases (words : List RespExpr) (o : SetOptions) :
    (∃ opts, OptionsRead words opts) ∨ ∃ reply, setOptions words o = .error reply ∧
    isError reply = true := by
  fun_induction setOptions words o with
  | case1 o => exact .inl ⟨[], .nil⟩
  | case2 o w words opt h ih => exact ih.imp_left fun ⟨opts, hr⟩ => ⟨_, .nx h hr⟩
  | case3 o w words opt _ h ih => exact ih.imp_left fun ⟨opts, hr⟩ => ⟨_, .xx h hr⟩
  | case4 o w words opt _ _ h ih => exact ih.imp_left fun ⟨opts, hr⟩ => ⟨_, .get h hr⟩
  | case5 o w words opt _ _ _ h ih => exact ih.imp_left fun ⟨opts, hr⟩ => ⟨_, .keepTtl h hr⟩
  | case6 => exact .inr ⟨_, rfl, rfl⟩
  | case7 w o opt _ _ _ _ unit absolute b words hw n hb ih =>
    exact ih.imp_left fun ⟨opts, hr⟩ => ⟨_, .expiry hw hb hr⟩
  | case8 => exact .inr ⟨_, rfl, rfl⟩
  | case9 => exact .inr ⟨_, rfl, rfl⟩

/-! ## Options read as a whole -/

namespace StringFamily.SetOptions

/-- What the handler starts from. -/
def initial : SetOptions := ⟨false, false, false, false, none, false⟩

/-- The deadline the collected options ask for. -/
def deadline (o : SetOptions) : Option UInt64 :=
  o.expireMs.map fun ms => if o.expireAbsolute then ms else now + ms

end StringFamily.SetOptions

theorem givenDeadline_cons (opt : SetOption) (opts : List SetOption) :
    givenDeadline now (opt :: opts) = (givenDeadline now opts).or (opt.deadline now) := by
  rw [givenDeadline, givenDeadline, List.filterMap_cons]
  cases opt.deadline now with
  | none => rw [Option.or_none]
  | some d => rw [List.getLast?_cons, Option.or_some]

theorem apply_deadline (o : SetOptions) (opt : SetOption) :
    (SetOption.apply o opt).deadline now = (opt.deadline now).or (o.deadline now) := by
  cases opt <;> rfl

theorem foldl_apply (opts : List SetOption) (o : SetOptions) :
    (opts.foldl SetOption.apply o).nx = (o.nx || decide (.nx ∈ opts)) ∧
      (opts.foldl SetOption.apply o).xx = (o.xx || decide (.xx ∈ opts)) ∧
      (opts.foldl SetOption.apply o).get = (o.get || decide (.get ∈ opts)) ∧
      (opts.foldl SetOption.apply o).keepTtl = (o.keepTtl || decide (.keepTtl ∈ opts)) ∧
      (opts.foldl SetOption.apply o).deadline now =
      (givenDeadline now opts).or (o.deadline now) := by
  induction opts generalizing o with
  | nil => simp [givenDeadline]
  | cons opt opts ih =>
    obtain ⟨hnx, hxx, hget, hkeep, hdeadline⟩ := ih (SetOption.apply o opt)
    rw [List.foldl_cons, hnx, hxx, hget, hkeep, hdeadline, apply_deadline, givenDeadline_cons,
      Option.or_assoc]
    cases opt <;> simp [SetOption.apply]

/-- The collected options say of each one whether it was given, and keep the deadline. -/
structure Collects (now : UInt64) (opts : List SetOption) (o : SetOptions) : Prop where
  nx : o.nx = decide (.nx ∈ opts)
  xx : o.xx = decide (.xx ∈ opts)
  get : o.get = decide (.get ∈ opts)
  keepTtl : o.keepTtl = decide (.keepTtl ∈ opts)
  deadline : o.deadline now = givenDeadline now opts

theorem collects_of_read {words : List RespExpr} {opts : List SetOption}
    (h : OptionsRead words opts) (now : UInt64) :
    ∃ o, setOptions words .initial = .ok o ∧ Collects now opts o := by
  obtain ⟨hnx, hxx, hget, hkeep, hdeadline⟩ := foldl_apply now opts .initial
  refine ⟨_, setOptions_of_read h .initial, hnx, hxx, hget, hkeep, ?_⟩
  rw [hdeadline]
  exact Option.or_none

/-! ## The handler -/

section Handler

variable {ω : Listing Bytes} {i : DbIndex} {key : Bytes} {x : Exec F}

theorem keptDeadline_leaves (i : DbIndex) (key : Bytes)
    (hlive : (x.slice.cell (i, key)).live x.slice.nowMs = x.slice.cell (i, key))
    (hsome : (x.slice.cell (i, key)).1.isSome = true) :
    Leaves ω (keptDeadline i key) x (x.slice.cell (i, key)).2 x.slice.cell := by
  refine (Leaves.perform (o := .ttlMs i key) rfl ω x).bind fun y hy hnow => ?_
  dsimp only [DbOp.answer, DbOp.onCell] at hy ⊢
  rw [hlive, ite_self, update_eq_self] at hy
  rw [hlive]
  obtain ⟨v, hv⟩ := Option.isSome_iff_exists.mp hsome
  rcases hc : x.slice.cell (i, key) with ⟨w, d⟩
  rw [hc] at hv
  cases hv
  cases d with
  | none => exact hy ▸ Leaves.pure ω y none
  | some d =>
    dsimp only [DbOp.ttlOf]
    refine (Leaves.nowMs ω y).bind fun z hz _ => ?_
    have hback : y.slice.nowMs + (d - x.slice.nowMs) = d := by
      rw [hnow, UInt64.add_comm, UInt64.sub_add_cancel]
    rw [hback, ← hy, ← hz]
    exact Leaves.pure ω z (some d)

theorem setDeadline_leaves (i : DbIndex) (key : Bytes) (o : SetOptions) (old : Option UInt64)
    (hsome : (x.slice.cell (i, key)).1.isSome = true) :
    Leaves ω (setDeadline i key o old) x ()
      (update x.slice.cell (i, key) ((x.slice.cell (i, key)).1,
        ((o.deadline x.slice.nowMs).or old).or (if o.keepTtl then (x.slice.cell (i, key)).2
          else none))) := by
  have hset : ∀ {op : DbOp F} {y : Exec F} {c : Cell F}, op.target = some (i, key) →
      y.slice.cell = x.slice.cell → op.onCell y.slice.nowMs (x.slice.cell (i, key)) = c →
      Leaves ω (invoke (S := dbOps F) op >>= fun _ => pure ()) y ()
        (update x.slice.cell (i, key) c) := by
    intro op y c htarget hy hc
    refine (Leaves.invoke htarget ω y).bind fun z hz _ => ?_
    rw [hy, hc] at hz
    exact hz ▸ Leaves.pure ω z ()
  unfold setDeadline SetOptions.deadline
  cases o.expireMs with
  | some ms =>
    dsimp only
    refine (Leaves.nowMs ω x).bind fun y hy _ => hset rfl hy ?_
    rw [DbOp.onCell, if_pos hsome]
    rfl
  | none =>
    cases old with
    | some d =>
      dsimp only
      refine hset rfl rfl ?_
      rw [DbOp.onCell, if_pos hsome]
      rfl
    | none =>
      cases hkeep : o.keepTtl with
      | true =>
        rw [if_pos rfl, Option.map_none, Option.none_or, Option.none_or, update_eq_self]
        exact Leaves.pure ω x ()
      | false => exact hset rfl rfl rfl

/-- `SET` on a key whose cell was looked up: refused, or the value is stored with the
deadline of the options. -/
theorem setValue_leaves (value : Bytes) (o : SetOptions) (old : Option Bytes) {c : Cell F}
    (hc : (x.slice.cell (i, key)).live x.slice.nowMs = c) :
    Leaves ω (setValue i key value o old) x
      (if (o.nx && c.1.isSome) then (if o.get then sendOptional old else sendNull)
        else if (o.xx && !c.1.isSome) then sendNull
        else if o.get then sendOptional old else sendOk)
      (update x.slice.cell (i, key)
        (if (o.nx && c.1.isSome) || (o.xx && !c.1.isSome) then c
          else (some (.fromBytes value),
            (o.deadline x.slice.nowMs).or (if o.keepTtl then c.2 else none)))) := by
  refine (existsKey_leaves i key).bind fun y hy hnow => ?_
  rw [hc] at hy ⊢
  have hcell : y.slice.cell (i, key) = c := by rw [hy, update_self]
  cases hnx : o.nx && c.1.isSome with
  | true =>
    rw [if_pos rfl, if_pos rfl, Bool.true_or, if_pos rfl, ← hy]
    exact Leaves.pure ω y _
  | false =>
    cases hxx : o.xx && !c.1.isSome with
    | true =>
      rw [if_neg Bool.false_ne_true, if_neg Bool.false_ne_true, if_pos rfl, if_pos rfl,
        Bool.or_true, if_pos rfl, ← hy]
      exact Leaves.pure ω y _
    | false =>
      simp only [Bool.false_eq_true, if_false, Bool.or_self]
      have hlive : (y.slice.cell (i, key)).live y.slice.nowMs = y.slice.cell (i, key) := by
        rw [hcell, hnow, ← hc, Cell.live_live]
      have hkept : Leaves ω (capturedDeadline (o.keepTtl && c.1.isSome) i key) y
          (if o.keepTtl && c.1.isSome then c.2 else none) y.slice.cell := by
        cases hkeep : o.keepTtl && c.1.isSome with
        | true =>
          rw [Bool.and_eq_true] at hkeep
          have hkept := keptDeadline_leaves (ω := ω) i key hlive (by rw [hcell]; exact hkeep.2)
          rw [hcell] at hkept
          exact hkept
        | false => exact Leaves.pure ω y none
      refine hkept.bind fun z hz hznow => ?_
      refine (Leaves.invoke (o := .addOrUpdate i key (.fromBytes value)) rfl ω z).bind
        fun w hw hwnow => ?_
      rw [hz, DbOp.onCell, hcell, hy, update_idem] at hw
      have hwcell : w.slice.cell (i, key) = (some (.fromBytes value), c.2) := by
        rw [hw, update_self]
      have hdeadline := setDeadline_leaves (ω := ω) (x := w) i key o
        (if o.keepTtl && c.1.isSome then c.2 else none) (by rw [hwcell]; rfl)
      refine hdeadline.bind fun u hu _ => ?_
      rw [hwcell, hwnow, hznow, hnow, hw, update_idem, Option.or_assoc] at hu
      have hold : (if o.keepTtl && c.1.isSome then c.2 else none).or
          (if o.keepTtl then c.2 else none) = if o.keepTtl then c.2 else none := by
        cases o.keepTtl <;> cases c.1.isSome <;> simp
      rw [hold] at hu
      exact hu ▸ Leaves.pure ω u _

/-- A look for the old value changes the key at most by purging it. -/
theorem capturedString_leaves (get : Bool) (i : DbIndex) (key : Bytes) {c : Cell F}
    (hc : (x.slice.cell (i, key)).live x.slice.nowMs = c) :
    ∃ c', c'.live x.slice.nowMs = c ∧ Leaves ω (capturedString get i key) x
      (if get && c.1.any (fun v => !v.isString) then .error (sendWrongType [])
        else .ok (if get then stringAt x.slice.nowMs c else none))
      (update x.slice.cell (i, key) c') := by
  have hlive : c.live x.slice.nowMs = c := by rw [← hc, Cell.live_live]
  cases get with
  | false =>
    refine ⟨x.slice.cell (i, key), hc, ?_⟩
    rw [update_eq_self]
    exact Leaves.pure ω x _
  | true =>
    refine ⟨c, hlive, ?_⟩
    rw [stringAt, hlive]
    refine (find_leaves i key).bind fun y hy _ => ?_
    rw [Exec.lookedUp, hc] at hy
    rw [hc, ← hy]
    have hpure := fun r : Except Bytes (Option Bytes) => Leaves.pure ω y r
    cases hv : c.1 with
    | none =>
      simp only [DbOp.found, hv, Option.map_none]
      exact hpure _
    | some v =>
      simp only [DbOp.found, hv, Option.map_some]
      cases hstring : v.isString with
      | true =>
        simp [hstring]
        exact hpure _
      | false =>
        simp [hstring]
        exact hpure _

end Handler

/-! ## The contract -/

/-- What `SET` may reply on a key with the live cell `c`, and the cell it leaves if it
stores the value. -/
inductive SetOutcome (args : List RespExpr) (now : UInt64) (value : Bytes) (c : Cell F) :
    Bytes → Option (Cell F) → Prop
  | miscounted {reply} (h : arityOk (-3) args.length = false) (herror : isError reply = true) :
      SetOutcome args now value c reply none
  | unreadable {reply} (h : ∀ opts, ¬ OptionsRead (args.drop 3) opts)
      (herror : isError reply = true) :
      SetOutcome args now value c reply none
  | conflicting {reply opts} (h : OptionsRead (args.drop 3) opts) (hnx : .nx ∈ opts)
      (hxx : .xx ∈ opts) (herror : isError reply = true) : SetOutcome args now value c reply none
  | wrongKind {reply opts v} (h : OptionsRead (args.drop 3) opts) (hget : .get ∈ opts)
      (hv : c.1 = some v) (hkind : v.isString = false) (herror : isError reply = true) :
      SetOutcome args now value c reply none
  | present {opts} (h : OptionsRead (args.drop 3) opts) (hnx : .nx ∈ opts)
      (hlive : c.1.isSome = true) :
      SetOutcome args now value c (if .get ∈ opts then sendOptional (stringAt now c) else sendNull)
        none
  | missing {opts} (h : OptionsRead (args.drop 3) opts) (hxx : .xx ∈ opts) (hnone : c.1 = none) :
      SetOutcome args now value c sendNull none
  | stored {opts} (h : OptionsRead (args.drop 3) opts) (hnx : ¬ (.nx ∈ opts ∧ c.1.isSome = true))
      (hxx : ¬ (.xx ∈ opts ∧ c.1 = none)) :
      SetOutcome args now value c (if .get ∈ opts then sendOptional (stringAt now c) else sendOk)
        (some (some (.fromBytes value),
          (givenDeadline now opts).or (if .keepTtl ∈ opts ∧ c.1.isSome = true then c.2 else none)))

/-- Nothing that is live changes, or one cell does. -/
def Changed (before after : Addr → Cell F) (a : Addr) : Option (Cell F) → Prop
  | none => ∀ b, (after b).live now = (before b).live now
  | some c => after = update before a c

theorem Changed.refl (cells : Addr → Cell F) (a : Addr) : Changed now cells cells a none :=
  fun _ => rfl

/-- Purging a key changes nothing that is live. -/
theorem Changed.purge {now : UInt64} {cells : Addr → Cell F} {a : Addr} {c : Cell F}
    (h : c.live now = (cells a).live now) : Changed now cells (update cells a c) a none := by
  intro b
  by_cases hb : b = a
  · subst hb
    rw [update_self, h]
  · rw [update_of_ne hb]

/-- `SET` after the look for the old value. -/
def setAfter (i : DbIndex) (key value : Bytes) (o : SetOptions) :
    Except Bytes (Option Bytes) → Command F Bytes
  | .error reply => pure reply
  | .ok old => setValue i key value o old

section Parts

variable {ctx : CommandContext} {key value : Bytes} (hkey : ctx.argBytes 1 = some key)
  (hvalue : ctx.argBytes 2 = some value)

include hkey hvalue

theorem cmdSet_error {reply : Bytes} (h : setOptions (ctx.args.drop 3) .initial = .error reply) :
    cmdSet (F := F) ctx = pure reply := by
  rw [SetOptions.initial] at h
  rw [cmdSet, arg, arg, hkey, hvalue, h]
  rfl

theorem cmdSet_ok {o : SetOptions} (h : setOptions (ctx.args.drop 3) .initial = .ok o) :
    cmdSet (F := F) ctx =
      if o.nx && o.xx
        then pure (sendErr (ascii "XX and NX options at the same time are not compatible"))
      else capturedString o.get ctx.dbIndex key >>= setAfter ctx.dbIndex key value o := by
  rw [SetOptions.initial] at h
  rw [cmdSet, arg, arg, hkey, hvalue, h]
  refine if_congr Iff.rfl rfl (congrArg (capturedString o.get ctx.dbIndex key >>= ·) ?_)
  funext r
  cases r <;> rfl

omit hkey hvalue in
theorem setValue_outcome {ω : Listing Bytes} {x : Exec F} {i : DbIndex} {c : Cell F}
    (hc : (x.slice.cell (i, key)).live x.slice.nowMs = c) (htidy : c.Tidy) {args : List RespExpr}
    {opts : List SetOption} (hread : OptionsRead (args.drop 3) opts) {o : SetOptions}
    (ho : Collects x.slice.nowMs opts o) :
    ∃ reply c' kept,
    Leaves ω (setValue i key value o (if o.get then stringAt x.slice.nowMs c else none)) x reply
        (update x.slice.cell (i, key) c') ∧
      SetOutcome args x.slice.nowMs value c reply kept ∧
      (kept = none ∧ c' = c ∨ kept = some c') := by
  have hrun :=
    setValue_leaves (ω := ω) value o (if o.get then stringAt x.slice.nowMs c else none) hc
  have hold : (if o.get then sendOptional (if o.get then stringAt x.slice.nowMs c else none)
      else sendNull) = if .get ∈ opts then sendOptional (stringAt x.slice.nowMs c)
        else sendNull := by
    by_cases hget : .get ∈ opts <;> simp [ho.get, hget]
  have hold' :
      (if o.get then sendOptional (if o.get then stringAt x.slice.nowMs c else none) else sendOk) =
      if .get ∈ opts then sendOptional (stringAt x.slice.nowMs c) else sendOk := by
    by_cases hget : .get ∈ opts <;> simp [ho.get, hget]
  by_cases hnx : .nx ∈ opts ∧ c.1.isSome = true
  · have hb : (o.nx && c.1.isSome) = true := by simp [ho.nx, hnx]
    simp only [hb, if_true, Bool.true_or, hold] at hrun
    exact ⟨_, c, none, hrun, .present hread hnx.1 hnx.2, .inl ⟨rfl, rfl⟩⟩
  have hnxb : (o.nx && c.1.isSome) = false := by
    rw [ho.nx, Bool.and_eq_false_iff, decide_eq_false_iff_not]
    exact (not_and_or.mp hnx).imp_right Bool.eq_false_iff.mpr
  by_cases hxx : .xx ∈ opts ∧ c.1 = none
  · have hb : (o.xx && !c.1.isSome) = true := by simp [ho.xx, hxx]
    simp only [hnxb, hb, Bool.false_eq_true, if_false, if_true, Bool.or_true] at hrun
    exact ⟨_, c, none, hrun, .missing hread hxx.1 hxx.2, .inl ⟨rfl, rfl⟩⟩
  have hxxb : (o.xx && !c.1.isSome) = false := by
    rw [ho.xx, Bool.and_eq_false_iff, decide_eq_false_iff_not, Bool.not_eq_false']
    exact (not_and_or.mp hxx).imp_right fun h => Option.isSome_iff_ne_none.mpr h
  have hkeep : (if o.keepTtl then c.2 else none) =
      if .keepTtl ∈ opts ∧ c.1.isSome = true then c.2 else none := by
    cases hv : c.1 with
    | none => simp [htidy.snd_eq_none hv]
    | some v => simp [ho.keepTtl]
  simp only [hnxb, hxxb, Bool.false_eq_true, if_false, Bool.or_self, hold', ho.deadline,
    hkeep] at hrun
  exact ⟨_, _, some _, hrun, .stored hread hnx hxx, .inr rfl⟩

theorem cmdSet_outcome {ω : Listing Bytes} {x : Exec F} {c : Cell F}
    (hc : (x.slice.cell (ctx.dbIndex, key)).live x.slice.nowMs = c) (htidy : c.Tidy) :
    ∃ reply cells kept, Leaves ω (cmdSet ctx) x reply cells ∧
      SetOutcome ctx.args x.slice.nowMs value c reply kept ∧
      Changed x.slice.nowMs x.slice.cell cells (ctx.dbIndex, key) kept := by
  have hlive : c.live x.slice.nowMs = c := by rw [← hc, Cell.live_live]
  rcases setOptions_cases (ctx.args.drop 3) .initial with ⟨opts, hread⟩ | ⟨reply, herr, herror⟩
  · obtain ⟨o, hok, ho⟩ := collects_of_read hread x.slice.nowMs
    rw [cmdSet_ok hkey hvalue hok]
    by_cases hboth : .nx ∈ opts ∧ .xx ∈ opts
    · rw [if_pos (by simp [ho.nx, ho.xx, hboth])]
      exact ⟨_, x.slice.cell, none, Leaves.pure ω x _, .conflicting hread hboth.1 hboth.2 rfl,
        .refl _ _ _⟩
    rw [if_neg (by simpa [ho.nx, ho.xx] using hboth)]
    obtain ⟨c', hc', hold⟩ := capturedString_leaves (ω := ω) o.get ctx.dbIndex key hc
    by_cases hkind : (o.get && c.1.any fun v => !v.isString) = true
    · rw [if_pos hkind] at hold
      rw [ho.get, Bool.and_eq_true, decide_eq_true_eq, Option.any_eq_true] at hkind
      obtain ⟨hmem, v, hv, hstring⟩ := hkind
      refine ⟨sendWrongType [], _, none, hold.bind fun y hy _ => ?_,
        .wrongKind hread hmem hv (by simpa using hstring) rfl, .purge (hc'.trans hc.symm)⟩
      exact hy ▸ Leaves.pure ω y _
    · rw [if_neg hkind] at hold
      obtain ⟨y, hrun, hy, hnow, hconn⟩ := hold
      have hcy : (y.slice.cell (ctx.dbIndex, key)).live y.slice.nowMs = c := by
        rw [hy, hnow, update_self, hc']
      rw [← hnow] at ho
      obtain ⟨reply, c'', kept, ⟨z, hrunz, hz, hnowz, hconnz⟩, hout, hkept⟩ :=
        setValue_outcome (ω := ω) hcy htidy hread ho
      rw [hnow] at hrunz hout
      rw [hy, update_idem] at hz
      refine ⟨reply, _, kept, ⟨z, (run_bind_of (step ω) _ hrun).trans hrunz, hz, hnowz.trans hnow,
        hconnz.trans hconn⟩, hout, ?_⟩
      rcases hkept with ⟨rfl, rfl⟩ | rfl
      · exact .purge (hlive.trans hc.symm)
      · rfl
  · have hnot : ∀ opts, ¬ OptionsRead (ctx.args.drop 3) opts := by
      intro opts hread
      rw [setOptions_of_read hread] at herr
      cases herr
    rw [cmdSet_error hkey hvalue herr]
    exact ⟨reply, x.slice.cell, none, Leaves.pure ω x reply, .unreadable hnot herror, .refl _ _ _⟩

end Parts

section Contract

variable [F64 F] [HashOrder] [CaseTable]

omit [CaseTable] in
theorem find_set : find (F := F) (ascii "SET") = some ⟨ascii "SET", cmdSet, -3, 1⟩ :=
  find_of_getElem (n := 1) stringTable (by simp [tables]) rfl rfl

/-- On every shard that operations lead to, `SET` with any words after key and value has one
of the outcomes: refused, with everything that is live as before, or stored. -/
theorem set_meets_contract (steps : List (SliceStep F × Listing Bytes)) (s : EngineShard F)
    (hs : s.dbSlice = DbSlice.new.after steps) (ω : Listing Bytes) (conn : ConnContext)
    (args : List RespExpr) (hname : commandName args = .ok (ascii "SET")) (key value : Bytes)
    (hkey : args[1]?.bind RespExpr.asBytes = some key)
    (hvalue : args[2]?.bind RespExpr.asBytes = some value) :
    ∃ reply kept, (dispatch ω args conn s).reply = some reply ∧
      SetOutcome args s.dbSlice.nowMs value (s.found conn key) reply kept ∧
      Changed s.dbSlice.nowMs s.dbSlice.cell (dispatch ω args conn s).shard.dbSlice.cell
        (conn.dbIndex, key) kept := by
  have htidy : s.dbSlice.Tidy := by
    rw [hs]
    exact DbSlice.tidy_new.after steps
  have hres := resolve_of_find (F := F) hname find_set
  cases harity : arityOk (-3) args.length with
  | true =>
    rw [harity, if_pos rfl] at hres
    have hkey' : (⟨args, conn.dbIndex⟩ : CommandContext).argBytes 1 = some key := hkey
    obtain ⟨reply, cells, kept, hleaves, hout, hchanged⟩ :=
      cmdSet_outcome (ω := ω) (x := ⟨s.dbSlice, conn⟩) hkey' hvalue rfl ((htidy _).live _)
    obtain ⟨hreply, hcells⟩ := dispatch_leaves hres hleaves
    rw [← hcells] at hchanged
    exact ⟨reply, kept, hreply, hout, hchanged⟩
  | false =>
    rw [harity, if_neg Bool.false_ne_true] at hres
    rw [dispatch, hres]
    exact ⟨_, none, rfl, .miscounted harity rfl, .refl _ _ _⟩

end Contract

section Fixed

attribute [local instance] F64.whole CaseTable.identity HashOrder.arbitrary

/-- Of two expiry options the last one counts, and the flag between them the handler reads too. -/
theorem set_meets_contract_px :
    ∃ reply kept,
    (dispatch (.arbitrary Bytes) (command ["set", "k", "v", "EX", "9", "get", "PX", "7"]) ⟨0⟩
        (EngineShard.new : EngineShard Int)).reply = some reply ∧
      SetOutcome (command ["set", "k", "v", "EX", "9", "get", "PX", "7"]) 0 (ascii "v")
        (Cell.empty : Cell Int) reply kept := by
  have hname : commandName (command ["set", "k", "v", "EX", "9", "get", "PX", "7"]) =
      .ok (ascii "SET") := commandName_eq_ok.mpr (by decide)
  obtain ⟨reply, kept, hreply, hout, -⟩ :=
    set_meets_contract [] (EngineShard.new : EngineShard Int) rfl
    (.arbitrary Bytes) ⟨0⟩ _ hname (ascii "k") (ascii "v") rfl rfl
  exact ⟨reply, kept, hreply, hout⟩

end Fixed

end ShrikeDb
