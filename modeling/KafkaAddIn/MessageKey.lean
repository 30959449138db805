import KafkaAddIn.HostCalls
import KafkaAddIn.SentRecords

namespace KafkaAddIn

open Foundation

variable {platform : Platform} {paParams : Nat → TVariant} {c : HostCall} {start s t : Process}
  {o : Outcome} {history : History}

def Process.Cleared (s : Process) : Prop := s.gMessage = [] ∧ s.gKey = []

def Process.Carries (s : Process) (record : Record) : Prop :=
  s.gMessage = record.payloadBytes ∧ s.gKey = record.keyBytes

/-- A call of `consume` that answers `false` leaves both empty, and one that answers
`true` leaves both as its record has them. -/
def Together (c : HostCall) (paParams : Nat → TVariant) (o : Outcome) (t : Process) : Prop :=
  (o.answers false → t.Cleared) ∧
    (o.answers true → ∃ record, GetsRecord c.answers paParams record ∧ t.Carries record)

/-- Once the Message string of a record is built, its Key string is built as well and the
bytes of the message given back are still there; or the Key string is not built, and no
byte was found for the Message. -/
def CleanCopy (a : Answers) (paParams : Nat → TVariant) : Prop :=
  ∀ record, GetsRecord a paParams record → a.buildMessage = true →
    (a.buildKey = true → a.stalePayload = record.payloadBytes ∧ a.staleKey = record.keyBytes) ∧
    (a.buildKey = false → a.stalePayload = [])

theorem consume_step_leaves (h : stepProcess platform c s = some (o, t))
    (hc : c.op.calls .eConsume = some paParams) :
    ∃ r, ConsumeLeaves c.answers paParams r t.gMessage t.gKey ∧ (∀ b, o.answers b ↔ r = .ok b) ∧
      o.result.isOk = r.isOk := by
  obtain ⟨r, w, hexit, _, rfl, hans, hok⟩ := consume_step h hc
  exact ⟨r, hexit.leaves, hans, hok⟩

theorem together_iff (h : stepProcess platform c s = some (o, t))
    (hc : c.op.calls .eConsume = some paParams) :
    Together c paParams o t ↔ CleanCopy c.answers paParams := by
  obtain ⟨r, hleaves, hans, _⟩ := consume_step_leaves h hc
  unfold Together
  rw [hans, hans]
  generalize hm : t.gMessage = m at hleaves
  generalize hk : t.gKey = k at hleaves
  cases hleaves with
  | unreadable hun =>
    constructor
    · intro _ record hget
      exact absurd hun hget.not_unreadable
    · intro _
      exact ⟨nofun, nofun⟩
  | nothing _ hnone =>
    constructor
    · intro _ record hget hbuilt
      simp [hnone record hget] at hbuilt
    · intro _
      exact ⟨fun _ => ⟨hm, hk⟩, nofun⟩
  | message hget hbuilt hlost =>
    constructor
    · intro htog record _ _
      have hempty := (htog.1 rfl).1
      rw [hm] at hempty
      exact ⟨fun hkey => by simp [hkey] at hlost, fun _ => hempty⟩
    · intro hclean
      have hempty := (hclean _ hget hbuilt).2 hlost
      exact ⟨fun _ => ⟨hm.trans hempty, hk⟩, nofun⟩
  | both hget hbuilt hkey =>
    constructor
    · intro htog record hget' _
      obtain ⟨record', hget'', hcarries⟩ := htog.2 rfl
      cases hget''.unique hget'
      refine ⟨fun _ => ⟨hm.symm.trans hcarries.1, hk.symm.trans hcarries.2⟩, ?_⟩
      intro hlost
      simp [hkey] at hlost
    · intro hclean
      obtain ⟨hpayload, hkeyBytes⟩ := (hclean _ hget hbuilt).1 hkey
      exact ⟨nofun, fun _ => ⟨_, hget, hm.trans hpayload, hk.trans hkeyBytes⟩⟩

/-- What each call owes the pair: `consume` changes both or neither, the others nothing. -/
def KeepsPair (e : Entry Process HostCall Outcome) : Prop :=
  (∀ paParams, e.call.op.calls .eConsume = some paParams →
    Together e.call paParams e.outcome e.after) ∧
  (e.call.op.calls .eConsume = none →
    e.after.gMessage = e.before.gMessage ∧ e.after.gKey = e.before.gKey)

/-- The pair is empty or that of a record some call has polled. -/
def PairOfOne (history : History) (s : Process) : Prop :=
  s.Cleared ∨ ∃ e ∈ history, ∃ paParams record, e.call.op.calls .eConsume = some paParams ∧
    GetsRecord e.call.answers paParams record ∧ s.Carries record

def CleanCopies (history : History) : Prop :=
  ∀ e ∈ history, ∀ paParams, e.call.op.calls .eConsume = some paParams →
    CleanCopy e.call.answers paParams

theorem keepsPair_iff (h : stepProcess platform c s = some (o, t)) :
    KeepsPair ⟨s, c, o, t⟩ ↔
      ∀ paParams, c.op.calls .eConsume = some paParams → CleanCopy c.answers paParams := by
  constructor
  · intro hkeep ps hc
    exact (together_iff h hc).mp (hkeep.1 ps hc)
  · intro hclean
    exact ⟨fun ps hc => (together_iff h hc).mpr (hclean ps hc), fun hc => frame_step h hc⟩

theorem pairOfOne_step (h : stepProcess platform c s = some (o, t))
    (hkeep : KeepsPair ⟨s, c, o, t⟩) (hpair : PairOfOne history s) :
    PairOfOne (history ++ [⟨s, c, o, t⟩]) t := by
  cases hc : c.op.calls .eConsume with
  | none =>
    obtain ⟨hm, hk⟩ := hkeep.2 hc
    rcases hpair with ⟨hm0, hk0⟩ | ⟨e, he, ps, record, hce, hget, hm0, hk0⟩
    · exact Or.inl ⟨hm.trans hm0, hk.trans hk0⟩
    · exact Or.inr ⟨e, List.mem_append_left _ he, ps, record, hce, hget, hm.trans hm0,
        hk.trans hk0⟩
  | some ps =>
    have htog := hkeep.1 ps hc
    obtain ⟨r, hleaves, hans, _⟩ := consume_step_leaves h hc
    cases r with
    | error e =>
      generalize hm : t.gMessage = m at hleaves
      generalize hk : t.gKey = k at hleaves
      cases hleaves
      exact Or.inl ⟨hm, hk⟩
    | ok b =>
      cases b with
      | false => exact Or.inl (htog.1 ((hans false).mpr rfl))
      | true =>
        obtain ⟨record, hget, hcarries⟩ := htog.2 ((hans true).mpr rfl)
        exact Or.inr ⟨_, List.mem_append_right _ (List.mem_singleton.mpr rfl), ps, record, hc,
          hget, hcarries⟩

theorem pairOfOne_run (h : Run (stepProcess platform) start history s)
    (hkeep : ∀ e ∈ history, KeepsPair e) (hstart : start.Cleared) : PairOfOne history s := by
  induction h with
  | nil => exact Or.inl hstart
  | @snoc history s t c o hrun hs ih =>
    have hlast := hkeep ⟨s, c, o, t⟩ (List.mem_append_right _ (List.mem_singleton.mpr rfl))
    have hbefore := ih fun e he => hkeep e (List.mem_append_left _ he)
    exact pairOfOne_step hs hlast hbefore

/-- The two globals are filled one after the other, from a message that has been given
back: they change together in a run from any state exactly when every copy is clean. -/
theorem messageKey_iff (h : Run (stepProcess platform) start history s) :
    ((∀ e ∈ history, KeepsPair e) ∧ (start.Cleared → PairOfOne history s)) ↔
      CleanCopies history := by
  have hentry : (∀ e ∈ history, KeepsPair e) ↔ CleanCopies history := by
    apply h.forall_entry_iff
    intro c s o t hs
    exact keepsPair_iff hs
  constructor
  · intro hkeep
    exact hentry.mp hkeep.1
  · intro hclean
    have hkeep := hentry.mpr hclean
    exact ⟨hkeep, pairOfOne_run h hkeep⟩

def newObject (obj : ObjId) : List HostCall :=
  [⟨obj, .lifetime .getClassObject, {}⟩, ⟨obj, .lifetime (.setMemManager true), {}⟩]

/-- A call of `consume` for the group "u" on the topic "t". -/
def consumeCall (obj : ObjId) (answers : Answers) : HostCall :=
  ⟨obj, .request (.callAsFunc 2 {} (recordParams [116] [112] []) 5), answers⟩

/-- The payload "hi" under a key of sixteen bytes. -/
def hiRecord : Record :=
  ⟨some [104, 105], some [48, 49, 50, 51, 52, 53, 54, 55, 56, 57, 97, 98, 99, 100, 101, 102]⟩

/-- A poll that gives this record, still there when it is copied. -/
def hiAnswers : Answers :=
  { poll := some ⟨0, hiRecord⟩, stalePayload := hiRecord.payloadBytes,
    staleKey := hiRecord.keyBytes }

def execCalls (calls : List HostCall) : History × Process :=
  execFrom (stepProcess .other) ([], {}) calls

theorem messageKey_oneRecord :
    let run := execCalls (newObject 0 ++ [consumeCall 0 hiAnswers])
    ((∀ e ∈ run.1, KeepsPair e) ∧ (({} : Process).Cleared → PairOfOne run.1 run.2)) ↔
      CleanCopies run.1 :=
  messageKey_iff (run_execFrom Run.nil _)

/-- The memory runs out between the two strings: the call answers `false`, and the Message
is that of the record. -/
theorem keyLost_torn :
    let run := execCalls (newObject 0 ++ [consumeCall 0 { hiAnswers with buildKey := false }])
    ¬ ((∀ e ∈ run.1, KeepsPair e) ∧ (({} : Process).Cleared → PairOfOne run.1 run.2)) := by
  intro run h
  have hlast := h.1 _ (List.mem_of_getElem? (rfl : run.1[2]? = some _))
  have htog := hlast.1 _ rfl
  have hempty := (htog.1 ⟨_, rfl, rfl, rfl⟩).1
  exact absurd hempty (by decide)

end KafkaAddIn
