import ShrikeDb.Server.Arity
import ShrikeDb.Server.Dispatch

/-! What a connection is answered: the bytes that one call of `dispatch_command`
appends to its reply buffer, whatever the shards hold and whether or not they can be
reached. They are one RESP2 value unless the command's name breaks a line. -/

namespace ShrikeDb

open CommandRegistry ReplyBuilder ShardThread

/-- Lowercasing neither makes nor removes line breaks. -/
class CaseTable.KeepsLines [CaseTable] : Prop where
  oneLine_iff (s : Bytes) : OneLine (CaseTable.toLowercase s) ↔ OneLine s

theorem CaseTable.identity_keepsLines : @CaseTable.KeepsLines CaseTable.identity :=
  @CaseTable.KeepsLines.mk CaseTable.identity fun _ => Iff.rfl

/-! ## Names of commands -/

theorem oneLine_map {f : UInt8 → UInt8} (hcr : ∀ b, f b = 13 ↔ b = 13)
    (hlf : ∀ b, f b = 10 ↔ b = 10) (s : Bytes) : OneLine (s.map f) ↔ OneLine s := by
  have h : ∀ c, (∀ b, f b = c ↔ b = c) → (c ∈ s.map f ↔ c ∈ s) := by
    intro c hc
    simp only [List.mem_map, hc, exists_eq_right]
  rw [OneLine, OneLine, h 13 hcr, h 10 hlf]

theorem oneLine_toLowercase [CaseTable] [CaseTable.KeepsLines] (s : Bytes) :
    OneLine (toLowercase s) ↔ OneLine s := by
  rw [toLowercase]
  split
  · refine oneLine_map (fun b => ?_) (fun b => ?_) s <;> rw [asciiLower] <;> grind
  · exact CaseTable.KeepsLines.oneLine_iff s

theorem oneLine_toAsciiUppercase (s : Bytes) : OneLine (toAsciiUppercase s) ↔ OneLine s := by
  refine oneLine_map (fun b => ?_) (fun b => ?_) s <;> rw [asciiUpper] <;> grind

/-- The first word is text of more than one line. -/
def BreaksLine (args : List RespExpr) : Prop :=
  ∃ name, args.head?.bind RespExpr.asStr = some name ∧ ¬OneLine name

variable {args : List RespExpr}

theorem oneLine_of_commandName {cmd : Bytes} (hc : commandName args = .ok cmd) :
    OneLine cmd ↔ ¬BreaksLine args := by
  obtain ⟨name, hname, rfl⟩ := Option.map_eq_some_iff.mp (commandName_eq_ok.mp hc)
  rw [oneLine_toAsciiUppercase, BreaksLine, hname]
  simp only [Option.some.injEq, exists_eq_left', not_not]

theorem wf_of_commandName {reply : Bytes} (hc : commandName args = .error reply) :
    WellFormed reply := by
  unfold commandName at hc
  split at hc
  · cases hc
    exact wf_err (by simp [OneLine, ascii])
  · split at hc
    · cases hc
      exact wf_err (by simp [OneLine, ascii])
    · split at hc
      · cases hc
        exact wf_err (by simp [OneLine, ascii])
      · cases hc

section Texts

variable [CaseTable] [CaseTable.KeepsLines]

variable {cmd : Bytes}

theorem wf_unknownCommand (h : OneLine cmd) : WellFormed (unknownCommand cmd) :=
  wf_err (((OneLine.append (by simp [OneLine, ascii]) ((oneLine_toLowercase cmd).mpr h)).append
    (by simp [OneLine, ascii])))

theorem wf_wrongNumber (h : OneLine cmd) : WellFormed (wrongNumber cmd) :=
  wf_err (((OneLine.append (by simp [OneLine, ascii]) ((oneLine_toLowercase cmd).mpr h)).append
    (by simp [OneLine, ascii])))

theorem oneLine_of_unknownCommand (h : Resp2 (unknownCommand cmd)) : OneLine cmd := by
  have htext := Resp2.oneLine_of_error h
  rw [← oneLine_toLowercase]
  exact ⟨fun hmem => htext.1 (by simp [hmem]), fun hmem => htext.2 (by simp [hmem])⟩

end Texts

theorem registry_oneLine {F : Type} [F64 F] [HashOrder] {e : CommandEntry F}
    (he : e ∈ buildCommandRegistry) : OneLine e.name := by
  have h : ∀ name ∈ names (F := F), OneLine name := by
    simp only [names, buildCommandRegistry, genericTable, stringTable, listTable, setTable,
      hashTable, zsetTable, List.map_append, List.map_cons, List.map_nil]
    decide
  exact h _ (List.mem_map_of_mem he)

theorem commonShard_some {n : Nat} (sid : Fin n) (sids : List (Fin n)) :
    commonShard (some sid) sids ≠ some none := by
  induction sids generalizing sid with
  | nil => rintro ⟨⟩
  | cons s sids ih =>
    rw [commonShard]
    split
    · rintro ⟨⟩
    · exact ih sid

theorem msetnxTarget_ne {n : Nat} [NeZero n] (h : 3 ≤ args.length) :
    msetnxTarget (n := n) args ≠ some none := by
  obtain ⟨a, b, rest, hdrop⟩ : ∃ a b rest, args.drop 1 = a :: b :: rest := by
    obtain - | ⟨_, - | ⟨a, - | ⟨b, rest⟩⟩⟩ := args
    · simp at h
    · simp at h
    · simp at h
    · exact ⟨a, b, rest, rfl⟩
  rw [msetnxTarget, hdrop]
  exact commonShard_some _ _

/-! ## One call -/

theorem length_mgetResults (numKeys : Nat) (parts : List (List Nat × Option Bytes)) :
    (mgetResults numKeys parts).length = numKeys := by
  have hset : ∀ (ws : List (Nat × Option Bytes)) (results : List (Option Bytes)),
      (ws.foldl (fun r w => r.set w.1 w.2) results).length = results.length := by
    intro ws results
    induction ws generalizing results with
    | nil => rfl
    | cons w ws ih => rw [List.foldl_cons, ih, List.length_set]
  have hplace : ∀ (results : List (Option Bytes)) (part : List Nat × Option Bytes),
      (placeValues results part).length = results.length := by
    rintro results ⟨positions, reply⟩
    cases reply with
    | none => rfl
    | some data => exact hset _ results
  have hfold : ∀ results : List (Option Bytes),
      (parts.foldl placeValues results).length = results.length := by
    intro results
    induction parts generalizing results with
    | nil => rfl
    | cons part parts ih => rw [List.foldl_cons, ih, hplace]
  rw [mgetResults, hfold, List.length_replicate]

section Calls

variable {F : Type} [F64 F] [HashOrder] [CaseTable] {n : Nat}

variable (F) in
/-- What a call that carries out a plan for a connection on the shard `home` can append
to the reply. The shards may hold anything; a shard other than `home` may be out of
reach, and a part of the command sent there may be lost. -/
inductive Answers (home : Fin n) (i : DbIndex) : Plan n → Bytes → Prop
  | reply (data : Bytes) (keepAlive : Bool) : Answers home i (.reply data keepAlive) data
  | select (j : DbIndex) : Answers home i (.select j) sendOk
  | ran {target : Fin n} {args : List RespExpr} {ω : Listing Bytes} {shard : EngineShard F}
      {data : Bytes} (h : (dispatch ω args ⟨i⟩ shard).reply = some data) :
      Answers home i (.run target args) data
  | unavailable {target : Fin n} (args : List RespExpr) (h : target ≠ home) :
      Answers home i (.run target args) (sendErr (ascii "shard unavailable"))
  | fan {subs : List (Sub n)} {parts : List (Sub n × Option Bytes)} (merge : Merge n)
      (hparts : (parts.map Prod.fst).Perm subs) (hreply : ∀ p ∈ parts, ∀ data, p.2 = some data →
        ∃ (ω : Listing Bytes) (shard : EngineShard F),
        (dispatch ω p.1.args ⟨i⟩ shard).reply = some data)
      (hhome : ∀ p ∈ parts, p.1.target = home → p.2 ≠ none) :
      Answers home i (.fan subs merge) (merge.apply parts)

variable {args : List RespExpr}

theorem dispatch_wellFormed [CaseTable.KeepsLines] (h : ¬BreaksLine args) {ω : Listing Bytes}
    {conn : ConnContext} {shard : EngineShard F} {data : Bytes}
    (hd : (dispatch ω args conn shard).reply = some data) : WellFormed data := by
  rw [dispatch] at hd
  cases hr : resolve (F := F) args with
  | run e =>
    rw [hr] at hd
    exact registry_wellFormed (find_mem (resolve_run hr).1).1 ⟨args, conn.dbIndex⟩ ω _ data hd
  | reply text keepAlive =>
    rw [hr] at hd
    cases hd
    rw [resolve] at hr
    cases hc : commandName args with
    | error reply =>
      rw [hc] at hr
      cases hr
      exact wf_of_commandName hc
    | ok cmd =>
      have hline := (oneLine_of_commandName hc).mpr h
      rw [hc] at hr
      dsimp only at hr
      split at hr
      · cases hr
        exact wf_ok
      · split at hr
        · cases hr
          exact wf_unknownCommand hline
        · split at hr
          · cases hr
          · cases hr
            exact wf_wrongNumber hline

/-- Plans whose replies are values of RESP2. -/
def Plan.Sane (home : Fin n) : Plan n → Prop
  | .reply data _ => WellFormed data
  | .run _ args => ¬BreaksLine args
  | .fan subs (.only target) =>
    target = home ∧ home ∈ subs.map Sub.target ∧ ∀ sub ∈ subs, ¬BreaksLine sub.args
  | _ => True

theorem Answers.wellFormed [CaseTable.KeepsLines] {home : Fin n} {i : DbIndex} {plan : Plan n}
    {reply : Bytes} (h : Answers F home i plan reply) (hplan : plan.Sane home) :
    WellFormed reply := by
  cases h with
  | reply data keepAlive => exact hplan
  | select j => exact wf_ok
  | ran h => exact dispatch_wellFormed hplan h
  | unavailable args h => exact wf_err (by simp [OneLine, ascii])
  | @fan subs parts merge hparts hreply hhome =>
    cases merge with
    | sum => exact wf_int _
    | mget numKeys => exact wf_array_map (length_mgetResults numKeys _) fun v _ => wf_optional v
    | ok => exact wf_ok
    | keys => exact wf_stringArray _
    | only target =>
      obtain ⟨rfl, hmem, hargs⟩ := hplan
      obtain ⟨sub, hsub, htarget⟩ := List.mem_map.mp hmem
      obtain ⟨p, hp, rfl⟩ := List.mem_map.mp (hparts.mem_iff.mpr hsub)
      obtain ⟨q, hq⟩ : ∃ q, (parts.find? fun p => p.1.target = target) = some q :=
        Option.isSome_iff_exists.mp (List.find?_isSome.mpr ⟨p, hp, decide_eq_true htarget⟩)
      have hqmem := List.mem_of_find?_eq_some hq
      have hqhome : q.1.target = target := by simpa using List.find?_some hq
      obtain ⟨data, hdata⟩ := Option.ne_none_iff_exists'.mp (hhome q hqmem hqhome)
      obtain ⟨ω, shard, hrun⟩ := hreply q hqmem data hdata
      rw [Merge.apply, hq, Option.bind_some, hdata]
      exact dispatch_wellFormed (hargs q.1 (hparts.mem_iff.mp (List.mem_map_of_mem hqmem))) hrun

variable [NeZero n]

theorem sane_route [CaseTable.KeepsLines] (home : Fin n) {cmd : Bytes} {e : CommandEntry F}
    (hline : ¬BreaksLine args) (hc : commandName args = .ok cmd) (he : find cmd = some e)
    (harity : arityOk e.arity args.length = true) : (route home cmd e.firstKey args).Sane home := by
  have hcross : WellFormed crossSlot := wf_err (by simp [OneLine, ascii])
  rw [route]
  split
  · exact hline
  · exact hline
  · trivial
  · trivial
  · next hclass =>
    obtain ⟨hmem, hname⟩ := find_mem he
    obtain ⟨-, hmin, -, hmset⟩ := registry_arity hmem
    have hlen := le_of_arityOk hmin harity
    rw [hmset (by rwa [hname])] at hlen
    rw [dispatchMset]
    split
    · exact wf_wrongNumber ((oneLine_of_commandName hc).mpr hline)
    · split
      · split
        · exact hcross
        · next hnone => exact absurd hnone (msetnxTarget_ne hlen)
        · exact hline
      · trivial
  · rw [routeRename]
    split
    · exact hcross
    · exact hline
  · rw [dispatchGlobal]
    split
    · exact hline
    · repeat' split
      · trivial
      · trivial
      · trivial
      · refine ⟨rfl, List.mem_cons_self, fun sub hsub => ?_⟩
        rcases List.mem_cons.mp hsub with rfl | hsub
        · exact hline
        · obtain ⟨sid, -, rfl⟩ := List.mem_map.mp hsub
          exact hline

theorem sane_dispatchCommand [CaseTable.KeepsLines] (home : Fin n) (hline : ¬BreaksLine args) :
    (dispatchCommand F home args).Sane home := by
  rw [dispatchCommand]
  split
  · next reply hc => exact wf_of_commandName hc
  · next cmd hc =>
    have hcmd := (oneLine_of_commandName hc).mpr hline
    split
    · exact wf_ok
    · split
      · rw [handleSelect]
        split
        · exact wf_err (by simp [OneLine, ascii])
        · split
          · trivial
          · exact wf_err (by simp [OneLine, ascii])
      · split
        · exact wf_err (by simp [OneLine, ascii])
        · split
          · exact wf_unknownCommand hcmd
          · next e he =>
            split
            · next harity => exact sane_route home hline hc he harity
            · exact wf_wrongNumber hcmd

theorem dispatchCommand_breaksLine (home : Fin n) {cmd : Bytes} (hc : commandName args = .ok cmd)
    (hcmd : ¬OneLine cmd) : dispatchCommand F home args = .reply (unknownCommand cmd) true := by
  have hne : ∀ name, OneLine name → cmd ≠ name := fun name hname heq => hcmd (heq ▸ hname)
  have hfind : find (F := F) cmd = none := by
    rw [Option.eq_none_iff_forall_ne_some]
    rintro e he
    obtain ⟨hmem, rfl⟩ := find_mem he
    exact hcmd (registry_oneLine hmem)
  rw [dispatchCommand, hc]
  dsimp only
  rw [if_neg (hne _ (by simp [OneLine, ascii])), if_neg (hne _ (by simp [OneLine, ascii])), if_neg,
    hfind]
  exact not_or.mpr ⟨hne _ (by simp [OneLine, ascii]), hne _ (by simp [OneLine, ascii])⟩

/-- The answer of a command is exactly one RESP2 value iff the command's name is no text
of more than one line. -/
theorem answer_resp2_iff [CaseTable.KeepsLines] (home : Fin n) (args : List RespExpr) (i : DbIndex)
    (reply : Bytes) (h : Answers F home i (dispatchCommand F home args) reply)
    (hlen : reply.length < 2 ^ 63) : Resp2 reply ↔ ¬BreaksLine args := by
  refine ⟨fun hreply hline => ?_,
    fun hline => (h.wellFormed (sane_dispatchCommand home hline)).resp2 hlen⟩
  obtain ⟨name, hname, -⟩ := id hline
  have hc : commandName args = .ok (toAsciiUppercase name) :=
    commandName_eq_ok.mpr (by rw [hname, Option.map_some])
  have hcmd := mt (oneLine_of_commandName hc).mp (not_not_intro hline)
  rw [dispatchCommand_breaksLine home hc hcmd] at h
  cases h
  exact hcmd (oneLine_of_unknownCommand hreply)

end Calls

section Fixed

attribute [local instance] F64.whole CaseTable.identity CaseTable.identity_keepsLines
  HashOrder.arbitrary

/-- A shard with a value of two lines. -/
noncomputable def twoLines : EngineShard Int :=
  (dispatch (.arbitrary Bytes) (command ["set", "k", "a\r\nb"]) ⟨0⟩ EngineShard.new).shard

theorem answer_resp2_twoLines : ¬BreaksLine (command ["get", "k"]) ∧
    (dispatch (.arbitrary Bytes) (command ["get", "k"]) ⟨0⟩ twoLines).reply =
      some (sendBulkString (ascii "a\r\nb")) ∧ Resp2 (sendBulkString (ascii "a\r\nb")) := by
  have hbreaks : ¬BreaksLine (command ["get", "k"]) := by
    rintro ⟨name, hname, hline⟩
    cases hname
    exact hline (by simp [OneLine, ascii])
  have hplan : dispatchCommand Int (0 : Fin 1) (command ["get", "k"]) =
      .run 0 (command ["get", "k"]) := rfl
  have hrun : (dispatch (.arbitrary Bytes) (command ["get", "k"]) ⟨0⟩ twoLines).reply =
      some (sendBulkString (ascii "a\r\nb")) := rfl
  refine ⟨hbreaks, hrun, (answer_resp2_iff (F := Int) (0 : Fin 1) (command ["get", "k"]) 0 _ ?_
    (by decide)).mpr hbreaks⟩
  rw [hplan]
  exact .ran hrun

/-- A command name with a line feed in it is repeated in the error, which then ends
before its own line feed. -/
theorem broken_line_answered :
    let args := command ["a\r\n+OK"]
    let reply := ascii "-ERR unknown command 'a\r\n+ok', with args beginning with: \r\n"
    Answers Int (0 : Fin 1) 0 (dispatchCommand Int 0 args) reply ∧ ¬Resp2 reply := by
  intro args reply
  have hc : commandName args = .ok (ascii "A\r\n+OK") := commandName_eq_ok.mpr (by decide +kernel)
  have hcmd : ¬OneLine (ascii "A\r\n+OK") := by simp [OneLine, ascii]
  have hreply : reply = unknownCommand (ascii "A\r\n+OK") := by decide +kernel
  rw [dispatchCommand_breaksLine 0 hc hcmd, hreply]
  exact ⟨.reply _ true, fun h => hcmd (oneLine_of_unknownCommand h)⟩

end Fixed

end ShrikeDb
