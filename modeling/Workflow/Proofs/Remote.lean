import Workflow.Proofs.Lossless
import Workflow.Store.Remote

/-! # Remote — what passes over the line to a server

    Whatever the server answers, an operation opens one connection and closes it as the
    last thing that it does, or it opens none.  The table is prepared over the first
    connection, ahead of the statement that the connection is for.

    The server tells what a save came to by the number of rows that it changed, and when
    it changed none, by whether it has the row with another version.  The heart is
    `RemoteStore.closes_carryOut`: what one operation sends is read off the way it is put
    together, from parts that send nothing, parts that send statements about rows, and
    the connection around these. -/

namespace Workflow

namespace RemoteCall

/-- Is it a statement about rows, and neither the preparation of the table nor the
    opening or the closing of a connection? -/
def AboutRows : RemoteCall → Prop
  | .connect _              => False
  | .execute s              => s ≠ .createTable ∧ s ≠ .createIndex
  | .fetchRow _ | .fetch _  => True
  | .close                  => False

end RemoteCall

namespace Wire

/-- What passes over a new connection before the statement that it is for. -/
def preparation (w : Wire) : List RemoteCall :=
  if w.prepared then [] else [.execute .createTable, .execute .createIndex]

/-- The line with a new connection, over which the table is prepared. -/
def opened (w : Wire) (address : String) : Wire :=
  { w with prepared := true, calls := w.calls ++ .connect address :: w.preparation }

/-- The line with its connection closed. -/
def closed (w : Wire) : Wire := { w with calls := w.calls ++ [.close] }

/-- The line after something that was answered. -/
def heard (w : Wire) (c : RemoteCall) : Wire :=
  { w with calls := w.calls ++ [c], replies := w.replies.tail }

end Wire

/-- What the first of some replies brings; a server without a reply brings null. -/
def answerOf : List Reply → Except Failure Value
  | []                => .ok .null
  | .answered v :: _  => .ok v
  | .raised f :: _    => .error f

namespace Exchange

variable {α β : Type} {x : Exchange α} {f : α → Exchange β} {a : α} {e : Failure} {w w' : Wire}
  {address : String}

/-- The result of an exchange, and the line afterwards. -/
def traced (x : Exchange α) (w : Wire) : Except Failure α × Wire := x.run.run w

/-! ## Exchanges in parts -/

theorem traced_bind_ok (h : traced x w = (.ok a, w')) :
    traced (x >>= f) w = traced (f a) w' := by
  unfold traced at h ⊢
  change (Prod.rec (fun r v => (ExceptT.bindCont f r).run v) (x.run.run w) :
    Except Failure β × Wire) = _
  rw [h]
  rfl

theorem traced_bind_error (h : traced x w = (.error e, w')) :
    traced (x >>= f) w = (.error e, w') := by
  unfold traced at h ⊢
  change (Prod.rec (fun r v => (ExceptT.bindCont f r).run v) (x.run.run w) :
    Except Failure β × Wire) = _
  rw [h]
  rfl

theorem traced_get (f : Wire → Exchange α) : traced (get >>= f) w = traced (f w) w := rfl

theorem traced_ofExcept (r : Except Failure α) : traced (ofExcept r) w = (r, w) := by
  cases r <;> rfl

/-- What passes is answered by the first reply that is left. -/
theorem traced_ask (c : RemoteCall) :
    traced (ask c) w = (answerOf w.replies, w.heard c) := by
  obtain ⟨prepared, replies, calls⟩ := w
  cases replies with
  | nil => rfl
  | cons reply replies =>
      cases reply with
      | answered v => rfl
      | raised f   => rfl

theorem traced_prepare :
    traced prepare w = (.ok (), { w with prepared := true, calls := w.calls ++ w.preparation }) := by
  obtain ⟨prepared, replies, calls⟩ := w
  unfold prepare
  rw [traced_get]
  cases prepared with
  | false =>
      refine congrArg (fun calls => (_, Wire.mk _ _ calls)) ?_
      exact List.append_assoc calls [_] [_]
  | true  => exact congrArg (fun calls => (_, Wire.mk _ _ calls)) (List.append_nil calls).symm

/-- An exchange over a connection of its own is the exchange with the opening and the
    preparation ahead of it and the closing behind it, whatever it comes to. -/
theorem traced_connected (body : Exchange α) : traced (connected address body) w =
    ((traced body (w.opened address)).1, (traced body (w.opened address)).2.closed) := by
  have hopened : ({ w with
      prepared := true,
      calls := w.calls ++ [.connect address] ++ w.preparation } : Wire) = w.opened address :=
    congrArg (fun calls => Wire.mk true w.replies calls) (List.append_assoc _ [_] _)
  unfold connected
  rw [traced_bind_ok (x := pass (.connect address)) rfl, traced_bind_ok traced_prepare]
  exact (traced_bind_ok (x := outcome body) rfl).trans
    ((traced_bind_ok (x := pass .close) rfl).trans ((traced_ofExcept _).trans (hopened ▸ rfl)))

/-! ## What passes -/

/-- Does the exchange leave the line as it is? -/
def Silent (x : Exchange α) : Prop := ∀ w, (traced x w).2 = w

/-- Does nothing pass but statements about rows, whatever is answered? -/
def KeepsToRows (x : Exchange α) : Prop :=
  ∀ w, ∃ data, (traced x w).2.calls = w.calls ++ data ∧
    (traced x w).2.prepared = w.prepared ∧ ∀ c ∈ data, c.AboutRows

/-- Does nothing pass, or one connection that is closed behind statements about rows, with
    the table prepared ahead of them unless it is? -/
def Closes (address : String) (x : Exchange α) : Prop :=
  ∀ w, (traced x w).2 = w ∨ ∃ data, (∀ c ∈ data, c.AboutRows) ∧
    (traced x w).2.calls =
      w.calls ++ .connect address :: (w.preparation ++ data ++ [.close]) ∧
    (traced x w).2.prepared = true

theorem silent_ofExcept (r : Except Failure α) : Silent (ofExcept r) := fun w => by
  rw [traced_ofExcept]

theorem silent_pure (a : α) : Silent (pure a) := fun _ => rfl

theorem silent_throw (f : Failure) : Silent (throw f : Exchange α) := fun _ => rfl

/-- The line after two exchanges, one after the other. -/
theorem traced_bind_line : (traced (x >>= f) w).2 = (traced x w).2 ∨
    ∃ a, (traced (x >>= f) w).2 = (traced (f a) (traced x w).2).2 := by
  cases h : traced x w with
  | mk r w' =>
      cases r with
      | ok a    => exact .inr ⟨a, by rw [traced_bind_ok h]⟩
      | error e => exact .inl (by rw [traced_bind_error h])

theorem Silent.bind (hx : Silent x) (hf : ∀ a, Silent (f a)) : Silent (x >>= f) := by
  intro w
  rcases traced_bind_line (x := x) (f := f) (w := w) with h | ⟨a, h⟩
  · rw [h, hx w]
  · rw [h, hf a, hx w]

theorem keepsToRows_ask {c : RemoteCall} (hc : c.AboutRows) : KeepsToRows (ask c) := by
  intro w
  rw [traced_ask]
  exact ⟨[c], rfl, rfl, fun x hx => List.mem_singleton.mp hx ▸ hc⟩

theorem Silent.keepsToRows (hx : Silent x) : KeepsToRows x := fun w =>
  ⟨[], by rw [hx w, List.append_nil], by rw [hx w], fun _ hc => absurd hc List.not_mem_nil⟩

theorem KeepsToRows.bind (hx : KeepsToRows x) (hf : ∀ a, KeepsToRows (f a)) :
    KeepsToRows (x >>= f) := by
  intro w
  obtain ⟨data, hcalls, hprepared, hdata⟩ := hx w
  rcases traced_bind_line (x := x) (f := f) (w := w) with h | ⟨a, h⟩
  · exact ⟨data, h ▸ hcalls, h ▸ hprepared, hdata⟩
  · obtain ⟨more, hcalls', hprepared', hmore⟩ := hf a (traced x w).2
    refine ⟨data ++ more, ?_, ?_, List.forall_mem_append.mpr ⟨hdata, hmore⟩⟩
    · rw [h, hcalls', hcalls, List.append_assoc]
    · rw [h, hprepared', hprepared]

/-- A statement passes only once it could be made. -/
theorem keepsToRows_made {r : Except Failure α} (hf : ∀ a, r = .ok a → KeepsToRows (f a)) :
    KeepsToRows (ofExcept r >>= f) := by
  cases r with
  | ok a    => exact hf a rfl
  | error e => exact fun w => (silent_ofExcept (.error e : Except Failure β)).keepsToRows w

theorem closes_connected (hx : KeepsToRows x) : Closes address (connected address x) := by
  intro w
  obtain ⟨data, hcalls, hprepared, hdata⟩ := hx (w.opened address)
  refine .inr ⟨data, hdata, ?_, ?_⟩
  · rw [traced_connected]
    unfold Wire.closed
    rw [hcalls, Wire.opened]
    simp [List.append_assoc]
  · rw [traced_connected]
    exact hprepared

theorem Silent.bind_closes (hx : Silent x) (hf : ∀ a, Closes address (f a)) :
    Closes address (x >>= f) := by
  intro w
  rcases traced_bind_line (x := x) (f := f) (w := w) with h | ⟨a, h⟩
  · rw [h]
    exact .inl (hx w)
  · rw [h, hx w]
    exact hf a w

theorem Closes.bind_silent (hx : Closes address x) (hf : ∀ a, Silent (f a)) :
    Closes address (x >>= f) := by
  intro w
  rcases traced_bind_line (x := x) (f := f) (w := w) with h | ⟨a, h⟩
  · rw [h]
    exact hx w
  · rw [h, hf a]
    exact hx w

end Exchange

/-! ## Operations -/

namespace Statement

variable {r : Row} {s : Statement}

theorem aboutRows_of_arguments (h : s.arguments ≠ []) : (RemoteCall.execute s).AboutRows :=
  ⟨fun hs => h (hs ▸ rfl), fun hs => h (hs ▸ rfl)⟩

theorem insert_aboutRows (h : insert r = .ok s) : (RemoteCall.execute s).AboutRows := by
  obtain ⟨values, _, hs⟩ := exceptBind_ok.mp h
  rw [← Except.ok.inj hs]
  exact aboutRows_of_arguments nofun

/-- The last two arguments of an update are the id and the version that is expected. -/
theorem update_arguments {expected : Int} (h : update r expected = .ok s) :
    ∃ given, s.arguments = given ++ [.str r.id, .int expected] := by
  obtain ⟨values, _, hs⟩ := exceptBind_ok.mp h
  rw [← Except.ok.inj hs]
  exact ⟨values ++ [.int r.version, .time r.updatedAt], by rw [List.append_assoc]; rfl⟩

theorem update_aboutRows {expected : Int} (h : update r expected = .ok s) :
    (RemoteCall.execute s).AboutRows := by
  obtain ⟨given, harguments⟩ := update_arguments h
  refine aboutRows_of_arguments ?_
  rw [harguments]
  exact List.append_ne_nil_of_right_ne_nil _ nofun

end Statement

/-- An operation of a store on a server. -/
inductive RemoteOperation where
  | create (e : Execution)
  | get (now : Timestamp) (id : Value)
  | save (now : Timestamp) (e : Execution) (expected : Int)
  | list (now : Timestamp) (f : Filter)
  | findForSubject (now : Timestamp) (subject : Value)

namespace RemoteStore

open Exchange

variable {s : RemoteStore}

/-- Carries an operation out, with the executions that it gives. -/
def carryOut (s : RemoteStore) : RemoteOperation → Exchange (List Execution)
  | .create e                   => do return [← s.create e]
  | .get now id                 => do return (← s.get now id).toList
  | .save now e expected        => do return [← s.save now e expected]
  | .list now f                 => s.list now f
  | .findForSubject now subject => s.findForSubject now subject

/-- The line after some operations, one after the other, whatever each comes to. -/
def lineAfter (s : RemoteStore) : List RemoteOperation → Wire → Wire
  | [],      w => w
  | o :: os, w => s.lineAfter os (traced (s.carryOut o) w).2

theorem closes_select {now : Timestamp} {q : Except Failure Statement} :
    Closes s.address (s.select now q) := by
  refine (closes_connected ?_).bind_silent fun _ => silent_ofExcept _
  exact keepsToRows_made fun _ _ => keepsToRows_ask trivial

theorem keepsToRows_lostSave {id : String} {expected : Int} :
    KeepsToRows (lostSave id expected) := by
  refine (keepsToRows_ask (c := .fetchRow _) trivial).bind fun row => Silent.keepsToRows ?_
  dsimp only
  split
  · exact fun _ => rfl
  · exact (silent_ofExcept _).bind fun found => silent_throw _

/-- An operation sends nothing, or opens one connection and closes it last. -/
theorem closes_carryOut (o : RemoteOperation) : Closes s.address (s.carryOut o) := by
  cases o with
  | create e =>
      refine ((silent_ofExcept _).bind_closes fun row => ?_).bind_silent fun _ => silent_pure _
      refine (closes_connected ?_).bind_silent fun _ => silent_pure _
      refine keepsToRows_made fun insertion h => ?_
      exact (keepsToRows_ask (Statement.insert_aboutRows h)).bind fun _ =>
        (silent_pure _).keepsToRows
  | get now id =>
      have hrow := keepsToRows_ask (c := .fetchRow (.selectOne id)) trivial
      refine ((closes_connected hrow).bind_silent fun row => ?_).bind_silent
        fun _ => silent_pure _
      split
      · rw [map_eq_pure_bind]
        exact (silent_ofExcept _).bind fun _ => silent_pure _
      · exact silent_pure _
  | save now e expected =>
      refine ((silent_ofExcept _).bind_closes fun row => ?_).bind_silent fun _ => silent_pure _
      refine (closes_connected ?_).bind_silent fun _ => silent_pure _
      refine keepsToRows_made fun update h => ?_
      refine (keepsToRows_ask (Statement.update_aboutRows h)).bind fun tag => ?_
      refine (silent_ofExcept _).keepsToRows.bind fun changed => ?_
      cases changed with
      | true  => exact (silent_pure ()).keepsToRows
      | false => exact keepsToRows_lostSave
  | list now f => exact (silent_ofExcept _).bind_closes fun status => closes_select
  | findForSubject now subject => exact closes_select

/-- A new store prepares its table with the first thing that it sends. -/
theorem prepared_lineAfter (os : List RemoteOperation) {w : Wire}
    (h : w.prepared = true ↔ w.calls ≠ []) :
    (s.lineAfter os w).prepared = true ↔ (s.lineAfter os w).calls ≠ [] := by
  induction os generalizing w with
  | nil => exact h
  | cons o os ih =>
      refine ih ?_
      rcases closes_carryOut o w with hw | ⟨data, _, hcalls, hprepared⟩
      · rw [hw]
        exact h
      · rw [hcalls, hprepared]
        exact iff_of_true rfl (List.append_ne_nil_of_right_ne_nil _ nofun)

/-! ## Saves -/

/-- What passes over the connection of a save. -/
def replace (row : Row) (id : String) (expected : Int) : Exchange Unit := do
  let update ← Exchange.ofExcept (Statement.update row expected)
  let tag ← ask (.execute update)
  if !(← Exchange.ofExcept (changed tag)) then lostSave id expected

/-- The failure of a save that changed no row, by what is found under its id. -/
def lostTo (id : String) (expected : Int) (found : Value) : Failure :=
  if found.isNull then .missingKey id
  else match versionText found with
    | .ok version => .plain .concurrentModification
        s!"Execution {id} was modified concurrently (expected version {expected}, found {version})"
    | .error f    => f

variable {w : Wire} {now : Timestamp} {e : Execution} {expected : Int} {id : String} {row : Row}
  {update : Statement} {tag found : Value} {f : Failure}

/-- A save that changed no row looks the version up, and fails. -/
theorem traced_lostSave : traced (lostSave id expected) w =
    (.error (match answerOf w.replies with
      | .ok found => lostTo id expected found
      | .error f  => f), w.heard (.fetchRow (.selectVersion id))) := by
  unfold lostSave
  cases hanswer : answerOf w.replies with
  | error f => exact traced_bind_error ((traced_ask _).trans (by rw [hanswer]))
  | ok found =>
      rw [traced_bind_ok ((traced_ask _).trans (by rw [hanswer]))]
      unfold lostTo
      dsimp only
      split
      · rfl
      · cases hversion : versionText found <;> rfl

/-- An update is sent once.  Its tag tells that the row was changed; or else the version
    is looked up. -/
theorem traced_replace (hupdate : Statement.update row expected = .ok update) :
    traced (replace row id expected) w =
      match answerOf w.replies >>= changed with
      | .ok true  => (.ok (), w.heard (.execute update))
      | .ok false => traced (lostSave id expected) (w.heard (.execute update))
      | .error f  => (.error f, w.heard (.execute update)) := by
  unfold replace
  rw [hupdate, traced_bind_ok (traced_ofExcept _)]
  cases hanswer : answerOf w.replies with
  | error f => exact traced_bind_error ((traced_ask _).trans (by rw [hanswer]))
  | ok tag =>
      rw [traced_bind_ok ((traced_ask _).trans (by rw [hanswer]))]
      change _ = match changed tag with
        | .ok true  => _
        | .ok false => _
        | .error f  => _
      cases hchanged : changed tag with
      | error f => exact traced_bind_error (traced_ofExcept _)
      | ok b =>
          rw [traced_bind_ok (traced_ofExcept _)]
          cases b <;> rfl

/-- A save that can be made is an update over a connection of its own. -/
theorem traced_save (hrow : Row.ofExecution (e.committed expected now) = .ok row) :
    traced (s.save now e expected) w =
      ((traced (replace row e.id expected) (w.opened s.address)).1.map
          fun _ => e.committed expected now,
        (traced (replace row e.id expected) (w.opened s.address)).2.closed) := by
  have hsave : s.save now e expected = (do
      let row ← Exchange.ofExcept (Row.ofExecution (e.committed expected now))
      connected s.address (replace row e.id expected)
      pure (e.committed expected now)) := rfl
  rw [hsave, hrow, traced_bind_ok (traced_ofExcept _)]
  cases h : (traced (replace row e.id expected) (w.opened s.address)).1 with
  | ok _    => exact traced_bind_ok ((traced_connected _).trans (by rw [h]))
  | error f => exact traced_bind_error ((traced_connected _).trans (by rw [h]))

/-- What a save with a given update comes to: it sends the update once and, if the update
    changed no row, one lookup. -/
theorem traced_save_cases (hrow : Row.ofExecution (e.committed expected now) = .ok row)
    (hupdate : Statement.update row expected = .ok update) :
    ∃ lookups, (traced (s.save now e expected) w).2.calls = w.calls ++
        .connect s.address :: (w.preparation ++ .execute update :: lookups ++ [.close]) ∧
      match answerOf w.replies >>= changed with
      | .ok true  => lookups = [] ∧
          (traced (s.save now e expected) w).1 = .ok (e.committed expected now)
      | .ok false => lookups = [.fetchRow (.selectVersion e.id)] ∧
          (traced (s.save now e expected) w).1 = .error (match answerOf w.replies.tail with
            | .ok found => lostTo e.id expected found
            | .error f  => f)
      | .error f  => lookups = [] ∧ (traced (s.save now e expected) w).1 = .error f := by
  have hreplies : (w.opened s.address).replies = w.replies := rfl
  rw [traced_save hrow, traced_replace hupdate, hreplies]
  cases answerOf w.replies >>= changed with
  | error f => exact ⟨[], by simp [Wire.opened, Wire.heard, Wire.closed], rfl, rfl⟩
  | ok b =>
      cases b with
      | true  => exact ⟨[], by simp [Wire.opened, Wire.heard, Wire.closed], rfl, rfl⟩
      | false =>
          rw [traced_lostSave]
          exact ⟨_, by simp [Wire.opened, Wire.heard, Wire.closed], rfl, rfl⟩

/-- Is a row changed?  The number of rows is the last word of the tag. -/
theorem changed_text {text word : String} (h : lastWord? text = some word) :
    changed (.str text) = .ok (word != "0") := by
  have htext : (Value.str text).toText? = some text := rfl
  unfold changed
  rw [htext]
  dsimp only
  rw [h]

/-- What a save tells by the answers to its update and to its lookup: it gives the
    execution with the next version when the tag counts rows, and fails when it counts
    none, by whether the lookup finds a row and its version. -/
structure TellsSave (s : RemoteStore) (now : Timestamp) (e : Execution) (expected : Int)
    (update : Statement) (w : Wire) : Prop where
  sent   : ∃ given lookups, update.arguments = given ++ [.str e.id, .int expected] ∧
    (lookups = [] ∨ lookups = [.fetchRow (.selectVersion e.id)]) ∧
    (traced (s.save now e expected) w).2.calls = w.calls ++
      .connect s.address :: (w.preparation ++ .execute update :: lookups ++ [.close])
  saved  : ∀ text word, answerOf w.replies = .ok (.str text) → lastWord? text = some word →
    word ≠ "0" → (traced (s.save now e expected) w).1 = .ok (e.committed expected now) ∧
      (e.committed expected now).version = expected + 1
  gone   : ∀ text, answerOf w.replies = .ok (.str text) → lastWord? text = some "0" →
    answerOf w.replies.tail = .ok .null →
    (traced (s.save now e expected) w).1 = .error (.missingKey e.id)
  lost   : ∀ text columns version, answerOf w.replies = .ok (.str text) →
    lastWord? text = some "0" → answerOf w.replies.tail = .ok (.dict columns) →
    Mapping.field? columns "version" = some version →
    (traced (s.save now e expected) w).1 = .error (.plain .concurrentModification
      s!"Execution {e.id} was modified concurrently (expected version {expected}, found {version.display})")
  broken : ∀ text columns, answerOf w.replies = .ok (.str text) →
    lastWord? text = some "0" → answerOf w.replies.tail = .ok (.dict columns) →
    Mapping.field? columns "version" = none →
    (traced (s.save now e expected) w).1 = .error (.missingKey "version")

theorem tellsSave (howns : e.OwnsId)
    (hrow : Row.ofExecution (e.committed expected now) = .ok row)
    (hupdate : Statement.update row expected = .ok update) :
    s.TellsSave now e expected update w := by
  have hid : row.id = e.id := by
    obtain ⟨id, name, step, entries, _, hid, _, _, hfilled⟩ := Row.ofExecution_ok hrow
    rw [Execution.committed_idValue, howns] at hid
    rw [hfilled]
    exact (Checked.ok.inj hid).symm
  obtain ⟨lookups, hcalls, hend⟩ := traced_save_cases (s := s) (w := w) hrow hupdate
  -- what follows from a tag that counts no row
  have hnone {text : String} (htag : answerOf w.replies = .ok (.str text))
      (hword : lastWord? text = some "0") {found : Value}
      (hfound : answerOf w.replies.tail = .ok found) :
      (traced (s.save now e expected) w).1 = .error (lostTo e.id expected found) := by
    have hchanged : (answerOf w.replies >>= changed) = .ok false := by
      rw [htag]
      exact changed_text hword
    rw [hchanged, hfound] at hend
    exact hend.2
  constructor
  case sent =>
    obtain ⟨given, harguments⟩ := Statement.update_arguments hupdate
    refine ⟨given, lookups, hid ▸ harguments, ?_, hcalls⟩
    revert hend
    split
    · exact fun h => .inl h.1
    · exact fun h => .inr h.1
    · exact fun h => .inl h.1
  case saved =>
    intro text word htag hword hne
    have hchanged : (answerOf w.replies >>= changed) = .ok true := by
      rw [htag]
      exact (changed_text hword).trans (congrArg Except.ok (bne_iff_ne.mpr hne))
    rw [hchanged] at hend
    exact ⟨hend.2, rfl⟩
  case gone =>
    intro text htag hword hfound
    exact hnone htag hword hfound
  case lost =>
    intro text columns version htag hword hfound hversion
    rw [hnone htag hword hfound, lostTo, versionText, hversion]
    rfl
  case broken =>
    intro text columns htag hword hfound hversion
    rw [hnone htag hword hfound, lostTo, versionText, hversion]
    rfl

/-- Whatever operations came before and whatever the server answers to statements about
    rows: an operation opens one connection and closes it last, with the table prepared
    ahead of its statement over the first, or nothing passes.  And a save that is sent
    tells what became of it. -/
theorem calls_closed (s : RemoteStore) (replies : List Reply)
    (before : List RemoteOperation) :
    let w := s.lineAfter before { replies }
    (∀ o, (traced (s.carryOut o) w).2 = w ∨ ∃ data, (∀ c ∈ data, c.AboutRows) ∧
      (traced (s.carryOut o) w).2.calls = w.calls ++ .connect s.address ::
        ((if w.calls.isEmpty then [.execute .createTable, .execute .createIndex] else []) ++
          data ++ [.close])) ∧
    ∀ now e expected row update, e.OwnsId →
      Row.ofExecution (e.committed expected now) = .ok row →
      Statement.update row expected = .ok update → s.TellsSave now e expected update w := by
  intro w
  have hprepared : w.prepared = true ↔ w.calls ≠ [] :=
    prepared_lineAfter before (iff_of_false nofun fun h => h rfl)
  have hpreparation : w.preparation =
      if w.calls.isEmpty then [.execute .createTable, .execute .createIndex] else [] := by
    unfold Wire.preparation
    by_cases hcalls : w.calls = []
    · rw [if_neg fun h => hprepared.mp h hcalls, hcalls]
      rfl
    · rw [if_pos (hprepared.mpr hcalls), if_neg fun h => hcalls (List.isEmpty_iff.mp h)]
  refine ⟨fun o => ?_, fun now e expected row update howns hrow hupdate =>
    tellsSave howns hrow hupdate⟩
  rcases closes_carryOut o w with hw | ⟨data, hdata, hcalls, _⟩
  · exact .inl hw
  · exact .inr ⟨data, hdata, hpreparation ▸ hcalls⟩

/-- A plain execution with a context that can be written is sent. -/
theorem exists_update (h : e.Plain) (hdepth : e.context.nestingDepth ≤ Document.depthLimit)
    (hshort : e.context.isShort = true) (expected : Int) (now : Timestamp) :
    ∃ row update, Row.ofExecution (e.committed expected now) = .ok row ∧
      Statement.update row expected = .ok update := by
  have haside : (e.committed expected now).aside = [] := by
    change Mapping.erase e.aside "version" = []
    rw [h.aside]
    rfl
  have hplain : (e.committed expected now).Plain :=
    ⟨haside, h.workflow, h.current, h.subject, h.actor, h.context, h.history⟩
  obtain ⟨row, contextText, historyText, hwrites⟩ :=
    (Row.exists_writes_iff hplain).mpr ⟨hdepth, hshort⟩
  refine ⟨row, ?update, hwrites.made, ?sent⟩
  case sent =>
    rw [Statement.update, Statement.contents, hwrites.context, hwrites.history]
    rfl

/-- A depot looks for a crate that its server does not have, and saves it over the version
    that it does not have any more either. -/
theorem depot_calls_closed :
    let depot : RemoteStore := ⟨"postgres://depot"⟩
    let held := crate "exec-1" (.int 3)
    let replies : List Reply := [.answered .null, .answered (.str "UPDATE 0"),
      .answered (.dict [(.str "version", .int 7)])]
    let w := depot.lineAfter [.get .defaultNow (.str "exec-1")] { replies }
    held.OwnsId ∧ (∃ row update, Row.ofExecution (held.committed 0 .defaultNow) = .ok row ∧
      Statement.update row 0 = .ok update) ∧
    (traced (depot.save .defaultNow held 0) w).1 = .error (.plain .concurrentModification
      "Execution exec-1 was modified concurrently (expected version 0, found 7)") := by
  intro depot held replies w
  obtain ⟨row, update, hrow, hupdate⟩ := exists_update (crate_flat "exec-1" (.int 3)).plain
    (by decide) (by decide +kernel) 0 .defaultNow
  have htells := (calls_closed depot replies [.get .defaultNow (.str "exec-1")]).2
    .defaultNow held 0 row update rfl hrow hupdate
  exact ⟨rfl, ⟨row, update, hrow, hupdate⟩,
    htells.lost "UPDATE 0" [(.str "version", .int 7)] (.int 7) rfl (by decide +kernel) rfl rfl⟩

/-- A row without its version is no row of another version, and fails otherwise. -/
theorem depot_lookup_broken :
    let depot : RemoteStore := ⟨"postgres://depot"⟩
    let w : Wire := { replies := [.answered (.str "UPDATE 0"), .answered (.dict [])] }
    (traced (depot.save .defaultNow (crate "exec-1" (.int 3)) 0) w).1 =
      .error (.missingKey "version") := by
  intro depot w
  obtain ⟨row, update, hrow, hupdate⟩ := exists_update (crate_flat "exec-1" (.int 3)).plain
    (by decide) (by decide +kernel) 0 .defaultNow
  exact (tellsSave (e := crate "exec-1" (.int 3)) rfl hrow hupdate).broken "UPDATE 0" [] rfl
    (by decide +kernel) rfl rfl

end RemoteStore

end Workflow
