import ShrikeDb.Server.Cluster
import ShrikeDb.Server.Replies

/-! The number of arguments as the checks see it. It is narrowed to an `i16` before it is
compared, so from 32768 words on a list is judged by another number than its own. -/

namespace ShrikeDb

open ReplyBuilder CommandRegistry ShardThread

/-! ## The check -/

/-- The number of arguments is not what the arity asks for. -/
def Miscounted (arity : Int16) (count : Nat) : Prop :=
  (0 < arity.toInt ∧ (count : Int) ≠ arity.toInt) ∨ (arity.toInt < 0 ∧ (count : Int) < -arity.toInt)

/-- The narrowed number is as good as the number itself. -/
def CountKept (arity : Int16) (count : Nat) : Prop :=
  (0 < arity.toInt → (count : Int) = arity.toInt ∨ (count : Int) % 2 ^ 16 ≠ arity.toInt) ∧
    (arity.toInt < 0 → (count : Int) < -arity.toInt ∨
      -arity.toInt ≤ (count : Int) % 2 ^ 16 ∧ (count : Int) % 2 ^ 16 < 2 ^ 15)

theorem refused_iff_miscounted {arity : Int16} (hmin : arity ≠ Int16.minValue) (count : Nat) :
    (arityOk arity count = false ↔ Miscounted arity count) ↔ CountKept arity count := by
  have hne : arity.toInt ≠ -2 ^ 15 := fun e => hmin (Int16.toInt_inj.mp e)
  have hlt := arity.toInt_lt
  have hle := arity.le_toInt
  rw [← Bool.not_eq_true, arityOk_iff hmin, Int.bmod_def, Miscounted, CountKept]
  omega

section Refusals

variable [CaseTable] {n : Nat} {args : List RespExpr} {name : Bytes}

theorem wrongNumber_select : wrongNumber (ascii "SELECT") =
    sendErr (ascii "wrong number of arguments for 'select' command") := rfl

/-- Other errors differ in the letter behind the word `ERR`. -/
theorem wrongNumber_ne {data : Bytes} (h : data[5]? ≠ some 119) : data ≠ wrongNumber name := by
  rintro rfl
  exact h rfl

theorem handleSelect_refuses_iff :
    handleSelect (n := n) args = .reply (wrongNumber (ascii "SELECT")) true ↔ args.length ≠ 2 := by
  rw [handleSelect, wrongNumber_select]
  by_cases hlen : args.length ≠ 2
  · exact iff_of_true (if_pos hlen) hlen
  · refine iff_of_false ?_ hlen
    rw [if_neg hlen]
    split
    · rintro ⟨⟩
    · intro h
      exact absurd (Plan.reply.inj h).1 (by decide)

variable [NeZero n]

theorem dispatchMset_refuses_iff :
    dispatchMset (n := n) name args = .reply (wrongNumber name) true ↔
      (args.length - 1) % 2 ≠ 0 := by
  rw [dispatchMset]
  by_cases hodd : (args.length - 1) % 2 ≠ 0
  · exact iff_of_true (if_pos hodd) hodd
  · refine iff_of_false ?_ hodd
    rw [if_neg hodd]
    split
    · split
      · intro h
        exact wrongNumber_ne (by decide) (Plan.reply.inj h).1
      · intro h
        exact wrongNumber_ne (by decide) (Plan.reply.inj h).1
      · rintro ⟨⟩
    · rintro ⟨⟩

/-- Behind the arity only the commands that set pairs are refused for the number of their
arguments, for a key without a value. -/
theorem route_refuses_iff (home : Fin n) {firstKey : Nat} :
    route home name firstKey args = .reply (wrongNumber name) true ↔
      classifyCommand name firstKey = .mSet ∧ (args.length - 1) % 2 ≠ 0 := by
  rw [route]
  cases classifyCommand name firstKey with
  | mSet => exact dispatchMset_refuses_iff.trans (and_iff_right rfl).symm
  | noKeys => exact iff_of_false (by rintro ⟨⟩) (by rintro ⟨⟨⟩, -⟩)
  | singleKey => exact iff_of_false (by rintro ⟨⟩) (by rintro ⟨⟨⟩, -⟩)
  | multiKeySameHandler => exact iff_of_false (by rintro ⟨⟩) (by rintro ⟨⟨⟩, -⟩)
  | mGet => exact iff_of_false (by rintro ⟨⟩) (by rintro ⟨⟨⟩, -⟩)
  | rename =>
    refine iff_of_false ?_ (by rintro ⟨⟨⟩, -⟩)
    dsimp only
    rw [routeRename]
    split
    · intro h
      exact wrongNumber_ne (by decide) (Plan.reply.inj h).1
    · rintro ⟨⟩
  | global =>
    refine iff_of_false ?_ (by rintro ⟨⟨⟩, -⟩)
    dsimp only
    rw [dispatchGlobal]
    split
    · rintro ⟨⟩
    · rintro ⟨⟩

end Refusals

section Dispatchers

variable {F : Type} [F64 F] [HashOrder] {args : List RespExpr} {name : Bytes} {e : CommandEntry F}

/-- The first key is among the words an arity asks for, and so are the two of a rename
and those of a pair to be set. -/
theorem registry_arity (he : e ∈ buildCommandRegistry) :
    e.firstKey < e.arity.toInt.natAbs ∧ e.arity ≠ Int16.minValue ∧
      (classifyCommand e.name e.firstKey = .rename → e.arity = 3) ∧
      (classifyCommand e.name e.firstKey = .mSet → e.arity = -3) := by
  have h : ∀ row ∈ (buildCommandRegistry (F := F)).map fun e => (e.name, e.arity, e.firstKey),
      row.2.2 < row.2.1.toInt.natAbs ∧ row.2.1 ≠ Int16.minValue ∧
        (classifyCommand row.1 row.2.2 = .rename → row.2.1 = 3) ∧
        (classifyCommand row.1 row.2.2 = .mSet → row.2.1 = -3) := by
    simp only [buildCommandRegistry, genericTable, stringTable, listTable, setTable, hashTable,
      zsetTable, List.map_append, List.map_cons, List.map_nil]
    decide +kernel
  exact h _ (List.mem_map_of_mem he)

theorem names_not_save : ∀ name ∈ names (F := F), name ≠ ascii "SAVE" ∧ name ≠ ascii "BGSAVE" := by
  simp only [names, buildCommandRegistry, genericTable, stringTable, listTable, setTable, hashTable,
    zsetTable, List.map_append, List.map_cons, List.map_nil]
  decide

theorem find_select :
    find (F := F) (ascii "SELECT") = some ⟨ascii "SELECT", GenericFamily.cmdSelect, 2, 0⟩ :=
  find_of_getElem (n := 4) genericTable (by simp [tables]) rfl rfl

variable [CaseTable]

/-- The refusal runs nothing: behind a handler one more command is counted. -/
theorem dispatch_refuses_iff (hfind : find name = some e) (hname : commandName args = .ok name)
    (ω : Listing Bytes) (conn : ConnContext) (shard : EngineShard F) :
    dispatch ω args conn shard = ⟨some (wrongNumber name), true, conn, shard⟩ ↔
      arityOk e.arity args.length = false := by
  rw [dispatch, resolve_of_find hname hfind]
  cases arityOk e.arity args.length with
  | false => exact iff_of_true rfl rfl
  | true =>
    refine iff_of_false (fun h => ?_) (by decide)
    have hcount := congrArg (fun out => out.shard.commandsProcessed) h
    exact absurd hcount (by simp)

variable {n : Nat} [NeZero n] (home : Fin n)

theorem dispatchCommand_of_find (hfind : find name = some e) (hname : commandName args = .ok name)
    (hselect : name ≠ ascii "SELECT") :
    dispatchCommand F home args =
      if arityOk e.arity args.length then route home name e.firstKey args
      else .reply (wrongNumber name) true := by
  have hquit : name ≠ ascii "QUIT" := by
    rintro rfl
    rw [find_quit] at hfind
    cases hfind
  have hsave : ¬(name = ascii "SAVE" ∨ name = ascii "BGSAVE") := by
    obtain ⟨hmem, rfl⟩ := find_mem hfind
    exact not_or.mpr (names_not_save (F := F) _ (List.mem_map_of_mem hmem))
  rw [dispatchCommand, hname]
  dsimp only
  rw [if_neg hquit, if_neg hselect, if_neg hsave, hfind]

/-- A command with one key is run on the shard of the key, as it is. -/
theorem dispatchCommand_singleKey (hfind : find (F := F) name = some e)
    (hname : commandName args = .ok name) (hclass : classifyCommand name e.firstKey = .singleKey)
    (harity : arityOk e.arity args.length = true) :
    dispatchCommand F home args = .run (Sharding.shard (keyAt args e.firstKey) n) args := by
  have hselect : name ≠ ascii "SELECT" := by
    rintro rfl
    rw [find_select] at hfind
    cases hfind
    have hother : classifyCommand (ascii "SELECT") 0 ≠ .singleKey := by decide
    exact hother hclass
  rw [dispatchCommand_of_find home hfind hname hselect, if_pos harity, route, hclass]

theorem dispatchCommand_refuses_iff (hfind : find name = some e)
    (hname : commandName args = .ok name) (hselect : name ≠ ascii "SELECT") :
    dispatchCommand F home args = .reply (wrongNumber name) true ↔
      arityOk e.arity args.length = false ∨
        classifyCommand name e.firstKey = .mSet ∧ (args.length - 1) % 2 ≠ 0 := by
  rw [dispatchCommand_of_find home hfind hname hselect]
  cases arityOk e.arity args.length with
  | false => exact iff_of_true rfl (.inl rfl)
  | true => exact (route_refuses_iff home).trans (or_iff_right (by decide)).symm

theorem dispatchCommand_select (hname : commandName args = .ok (ascii "SELECT")) :
    dispatchCommand F home args = handleSelect args := by
  rw [dispatchCommand, hname]
  dsimp only
  rw [if_neg (by decide), if_pos rfl]

/-- Both checks refuse a registered command for the number of its arguments exactly when they
should, if and only if narrowing the number does not matter. `SELECT` has a check of its own
on the way to a shard, and there a key without a value is refused behind the arity. -/
theorem arity_checked_iff (hmem : e ∈ buildCommandRegistry) (hname : commandName args = .ok e.name)
    (ω : Listing Bytes) (conn : ConnContext) (shard : EngineShard F) :
    ((dispatch ω args conn shard = ⟨some (wrongNumber e.name), true, conn, shard⟩ ↔
        Miscounted e.arity args.length) ↔ CountKept e.arity args.length) ∧
      ((dispatchCommand F home args = .reply (wrongNumber e.name) true ↔
          Miscounted e.arity args.length) ↔
        if e.name = ascii "SELECT" then True
        else if classifyCommand e.name e.firstKey = .mSet ∧
        (args.length - 1) % 2 ≠ 0 then args.length < 3
        else CountKept e.arity args.length) := by
  have hfind := find_of_mem hmem
  obtain ⟨-, hmin, -, hmset⟩ := registry_arity hmem
  refine ⟨?_, ?_⟩
  · rw [dispatch_refuses_iff hfind hname]
    exact refused_iff_miscounted hmin _
  · by_cases hselect : e.name = ascii "SELECT"
    · rw [hselect] at hfind hname ⊢
      cases hfind.symm.trans find_select
      rw [dispatchCommand_select home hname, handleSelect_refuses_iff, if_pos rfl, Miscounted,
        iff_true]
      have harity : (2 : Int16).toInt = 2 := rfl
      dsimp only
      omega
    · rw [dispatchCommand_refuses_iff home hfind hname hselect, if_neg hselect]
      split
      · next hpairs =>
        have harity : e.arity.toInt = -3 := congrArg Int16.toInt (hmset hpairs.1)
        refine (iff_true_left (Or.inr hpairs)).trans ?_
        rw [Miscounted, harity]
        omega
      · next hpairs =>
        rw [or_iff_left hpairs]
        exact refused_iff_miscounted hmin _

end Dispatchers

section Fixed

attribute [local instance] F64.whole CaseTable.identity HashOrder.arbitrary

/-- A command with so many empty arguments. -/
def called (name : String) (count : Nat) : List RespExpr :=
  .string (ascii name) :: List.replicate count (.string [])

theorem length_called (name : String) (count : Nat) : (called name count).length = count + 1 := by
  rw [called, List.length_cons, List.length_replicate]

theorem commandName_called {name : String} {e : CommandEntry Int} (h : find (ascii name) = some e)
    (count : Nat) : commandName (called name count) = .ok (ascii name) :=
  commandName_of_find h _

/-- `GET` with 65538 words is not refused, and `DEL` with 32769 words is. -/
theorem narrowed_count_accepted :
    ((called "GET" 65537).length ≤ 1048576 ∧ Miscounted 2 (called "GET" 65537).length ∧
      dispatch (.arbitrary Bytes) (called "GET" 65537) ⟨0⟩ (EngineShard.new (F := Int)) ≠
        ⟨some (wrongNumber (ascii "GET")), true, ⟨0⟩, EngineShard.new⟩ ∧
      dispatchCommand Int (0 : Fin 1) (called "GET" 65537) ≠
        .reply (wrongNumber (ascii "GET")) true) ∧
    ((called "DEL" 32768).length ≤ 1048576 ∧ ¬Miscounted (-2) (called "DEL" 32768).length ∧
      dispatch (.arbitrary Bytes) (called "DEL" 32768) ⟨0⟩ (EngineShard.new (F := Int)) =
        ⟨some (wrongNumber (ascii "DEL")), true, ⟨0⟩, EngineShard.new⟩ ∧
      dispatchCommand Int (0 : Fin 1) (called "DEL" 32768) =
        .reply (wrongNumber (ascii "DEL")) true) := by
  have hget : find (F := Int) (ascii "GET") = some ⟨ascii "GET", StringFamily.cmdGet, 2, 1⟩ :=
    find_of_getElem (n := 0) stringTable (by simp [tables]) rfl rfl
  have hgetName := commandName_called hget 65537
  have hdelName := commandName_called (find_del (F := Int)) 32768
  refine ⟨⟨?_, ?_, ?_, ?_⟩, ?_, ?_, ?_, ?_⟩
  · rw [length_called]
    decide
  · rw [length_called]
    exact .inl (by decide)
  · rw [ne_eq, dispatch_refuses_iff hget hgetName, length_called]
    decide
  · rw [ne_eq, dispatchCommand_refuses_iff 0 hget hgetName (by decide), length_called]
    decide
  · rw [length_called]
    decide
  · rw [length_called, Miscounted]
    decide
  · rw [dispatch_refuses_iff find_del hdelName, length_called]
    decide
  · rw [dispatchCommand_refuses_iff 0 find_del hdelName (by decide), length_called]
    exact .inl (by decide)

/-- `MGET` with 1001 words is judged by that number. -/
theorem arity_checked_mget :
    dispatch (.arbitrary Bytes) (called "MGET" 1000) ⟨0⟩ (EngineShard.new (F := Int)) ≠
      ⟨some (wrongNumber (ascii "MGET")), true, ⟨0⟩, EngineShard.new⟩ := by
  have hname := commandName_called (find_mget (F := Int)) 1000
  have hiff :=
    (arity_checked_iff (0 : Fin 1) (find_mem (find_mget (F := Int))).1 hname (.arbitrary Bytes) ⟨0⟩
    EngineShard.new).1.mpr
  rw [length_called] at hiff
  rw [ne_eq, hiff (by rw [CountKept]; decide), Miscounted]
  decide

end Fixed

end ShrikeDb
