import KafkaAddIn.Parameters
import KafkaAddIn.GivenNames
import KafkaAddIn.Acknowledgement

namespace KafkaAddIn

open Foundation

variable {platform : Platform} {this : CKafka} {a : Answers} {w w' : World} {c : HostCall}
  {s t : Process} {o : Outcome} {history : History} {paParams : Nat → TVariant}

def getNProps : Int := ePropLast

def getNMethods : Int := eMethLast

def isPropReadable (lPropNum : Int) : Bool :=
  match Props.ofLong lPropNum with
  | some .eMessage => true
  | some .eKey => true
  | none => false

def hasRetVal (lMethodNum : Int) : Bool :=
  match Methods.ofLong lMethodNum with
  | some .eGetInfo => true
  | some .eProduce => true
  | some .eConsume => true
  | none => false

theorem hasRetVal_eq (num : Int) : hasRetVal num = (Methods.ofLong num).isSome := by
  unfold hasRetVal
  cases Methods.ofLong num with
  | none => rfl
  | some m => cases m <;> rfl

theorem isPropReadable_eq (num : Int) : isPropReadable num = (Props.ofLong num).isSome := by
  unfold isPropReadable
  cases Props.ofLong num with
  | none => rfl
  | some prop => cases prop <;> rfl

/-- The numbers of the methods are those below `getNMethods`. -/
theorem hasRetVal_iff {num : Int} : hasRetVal num = true ↔ 0 ≤ num ∧ num < getNMethods := by
  rw [hasRetVal_eq]
  unfold Methods.ofLong getNMethods eMethLast
  by_cases h0 : num = 0
  · simp [h0]
  by_cases h1 : num = 1
  · simp [h1]
  by_cases h2 : num = 2
  · simp [h2]
  rw [if_neg h0, if_neg h1, if_neg h2]
  refine iff_of_false (by simp) ?_
  omega

theorem isPropReadable_iff {num : Int} :
    isPropReadable num = true ↔ 0 ≤ num ∧ num < getNProps := by
  rw [isPropReadable_eq]
  unfold Props.ofLong getNProps ePropLast
  by_cases h0 : num = 0
  · simp [h0]
  by_cases h1 : num = 1
  · simp [h1]
  rw [if_neg h0, if_neg h1]
  refine iff_of_false (by simp) ?_
  omega

theorem findNameFrom_range {name : List Wchar} {names : List (List Wchar)} {size : Nat}
    {i num : Int} (h : findNameFrom name names size i = .ok num) :
    num = -1 ∨ (i ≤ num ∧ num < i + size) := by
  induction size generalizing names i with
  | zero =>
    have hnone : num = -1 := by
      unfold findNameFrom at h
      exact (Except.ok.inj h).symm
    exact Or.inl hnone
  | succ size ih =>
    cases names with
    | nil => cases h
    | cons n names =>
      unfold findNameFrom at h
      cases hcmp : wcscmpEq n name with
      | error e =>
        rw [hcmp] at h
        cases h
      | ok same =>
        rw [hcmp] at h
        cases same with
        | true =>
          have hfound : num = i := (Except.ok.inj h).symm
          omega
        | false =>
          have hlater := ih h
          omega

/-- A search gives -1 or a number below the size of its tables. -/
theorem findIn_range {names namesRu : List (List Wchar)} {size num : Int}
    {wsName : List ShortWchar} (hsize : 0 ≤ size)
    (h : findIn platform names namesRu size wsName = .ok num) :
    num = -1 ∨ (0 ≤ num ∧ num < size) := by
  have hin : ∀ {table : List (List Wchar)} {name n}, findName table name size = .ok n →
      n = -1 ∨ (0 ≤ n ∧ n < size) := by
    intro table name n hn
    have hrange := findNameFrom_range hn
    omega
  unfold findIn at h
  cases hconv : convFromShortWchar platform none wsName 0 with
  | error e =>
    rw [hconv] at h
    cases h
  | ok p =>
    rw [hconv] at h
    cases hfirst : findName names p.1 size with
    | error e =>
      simp only [bind, Except.bind, hfirst] at h
      cases h
    | ok n =>
      simp only [bind, Except.bind, hfirst] at h
      by_cases hn : n = -1
      · rw [if_pos hn] at h
        exact hin h
      · rw [if_neg hn] at h
        have hnum : n = num := Except.ok.inj h
        rw [← hnum]
        exact hin hfirst

/-- With a number that is `known`, an answer is true; with any other the variant comes back
as it was with the answer false, and nothing outside is touched. -/
structure Outcome.Fits (known : Bool) (pvar : TVariant) (o : Outcome) : Prop where
  true_of_known : known = true → ∀ ok val, o.result = .ok (.variant ok val) → ok = true
  refused : known = false → o.result = .ok (.variant false pvar) ∧ o.trace = []

/-- What a call may come to, after what the component says of itself: its counts, which
properties can be read, which methods return a value, and with how many parameters. A call
for another number is refused and does nothing. -/
structure AsAnnounced (e : Entry Process HostCall Outcome) : Prop where
  foundMethod : ∀ ws num, e.call.op = .request (.findMethod ws) →
    e.outcome.result = .ok (.number num) → num = -1 ∨ hasRetVal num = true
  foundProp : ∀ ws num, e.call.op = .request (.findProp ws) →
    e.outcome.result = .ok (.number num) → num = -1 ∨ isPropReadable num = true
  namedMethod : ∀ num lAlias p, e.call.op = .request (.getMethodName num lAlias) →
    e.outcome.result = .ok (.name (some p)) → hasRetVal num = true
  namedProp : ∀ num lAlias p, e.call.op = .request (.getPropName num lAlias) →
    e.outcome.result = .ok (.name (some p)) → isPropReadable num = true
  defaulted : ∀ num i pvar, e.call.op = .request (.getParamDefValue num i pvar) →
    e.outcome.result = .ok (.variant (hasRetVal num) { pvar with vt := vtypeEmpty }) ∧
      e.outcome.trace = []
  valued : ∀ num pvar, e.call.op = .request (.getPropVal num pvar) →
    Outcome.Fits (isPropReadable num) pvar e.outcome
  called : ∀ num pvar ps size, e.call.op = .request (.callAsFunc num pvar ps size) →
    Outcome.Fits (hasRetVal num) pvar e.outcome
  /-- No parameter beyond the last is read. -/
  reads : ∀ i, .readWstr i ∈ e.outcome.trace → ∃ num pvar ps size,
    e.call.op = .request (.callAsFunc num pvar ps size) ∧ i < getNParams num
  /-- Before Kafka is turned to every parameter has been read. -/
  contacts : ∀ pre x post, e.outcome.trace = pre ++ x :: post → x.contactsKafka = true →
    ∃ num pvar ps size, e.call.op = .request (.callAsFunc num pvar ps size) ∧
      0 < getNParams num ∧ ∀ i < getNParams num, .readWstr i ∈ pre

theorem request_step {request : Request} (h : stepProcess platform c s = some (o, t))
    (hop : c.op = .request request) :
    ∃ this r w, Ends (runRequest platform this c.answers request) s.world r w ∧
      o = ⟨r, w.trace⟩ := by
  obtain ⟨_, ⟨l, _, _, hl, _⟩ | ⟨request', this, r, w, hreq, _, hrun, ho, _⟩⟩ := stepProcess_cases h
  · cases hl.symm.trans hop
  · cases hreq.symm.trans hop
    exact ⟨this, r, w, hrun, ho⟩

theorem searched_range {names namesRu : List (List Wchar)} {size num : Int}
    {ws : List ShortWchar} {r : Except Exit Int} {ret : Except Exit Ret} (hsize : 0 ≤ size)
    (h : Ends (lift (findIn platform names namesRu size ws)) w r w')
    (hret : ret = r.map .number) (hok : ret = .ok (.number num)) :
    num = -1 ∨ (0 ≤ num ∧ num < size) := by
  obtain ⟨rfl, _⟩ := ends_lift.mp h
  cases hfind : findIn platform names namesRu size ws with
  | error e =>
    rw [hret, hfind] at hok
    cases hok
  | ok n =>
    rw [hret, hfind] at hok
    cases hok
    exact findIn_range hsize hfind

theorem NameTables.named_range (t : NameTables) {num lAlias : Int} {p : List ShortWchar}
    {r : Except Exit (Option (List ShortWchar))} {ret : Except Exit Ret}
    (h : Ends (getNameOf platform t.names t.namesRu t.size this a num lAlias) w r w')
    (hret : ret = r.map .name) (hok : ret = .ok (.name (some p))) :
    0 ≤ num ∧ num < t.size := by
  rcases t.getNameOf_cases h with ⟨rfl, _⟩ | ⟨rfl, _⟩ | ⟨_, i, rfl, text, hhas, _⟩
  · rw [hret] at hok
    cases hok
  · rw [hret] at hok
    cases hok
  · have hi := hhas.1
    omega

/-- Of the requests only the two methods that take parameters read them or turn to Kafka. -/
theorem parameters_step (h : stepProcess platform c s = some (o, t)) :
    (∀ x ∈ o.trace, x.ofHost = true) ∨
    ∃ num pvar ps size failed, c.op = .request (.callAsFunc num pvar ps size) ∧
      0 < getNParams num ∧ Decoding c.answers ps (getNParams num) failed o.trace := by
  have hmethod : ∀ {m : Methods} {ps}, m ≠ .eGetInfo → c.op.calls m = some ps →
      ∃ num pvar ps size failed, c.op = .request (.callAsFunc num pvar ps size) ∧
        0 < getNParams num ∧ Decoding c.answers ps (getNParams num) failed o.trace := by
    intro m ps hne hc
    obtain ⟨num, pvar, size, hm, hop⟩ := Op.calls_cases hc
    obtain ⟨this, num', pvar', r, w, _, hm', hexit, rfl, _⟩ := method_step h hc
    have hsame : getNParams num = getNParams num' := by
      unfold getNParams
      rw [hm, hm']
    have hpos : 0 < getNParams num := by
      unfold getNParams
      rw [hm]
      cases m with
      | eGetInfo => exact absurd rfl hne
      | eProduce => exact Nat.succ_pos 5
      | eConsume => exact Nat.succ_pos 4
    have hdec := callAsFunc_decoding hm' hne rfl hexit
    rw [← hsame] at hdec
    exact ⟨num, pvar, ps, size, _, hop, hpos, hdec⟩
  cases hcons : c.op.calls .eConsume with
  | some ps => exact Or.inr (hmethod (by decide) hcons)
  | none =>
    cases hprod : c.op.calls .eProduce with
    | some ps => exact Or.inr (hmethod (by decide) hprod)
    | none => exact Or.inl (quiet_step h hcons hprod).2

theorem reads_step (h : stepProcess platform c s = some (o, t)) {i : Nat}
    (hi : .readWstr i ∈ o.trace) : ∃ num pvar ps size,
      c.op = .request (.callAsFunc num pvar ps size) ∧ i < getNParams num := by
  rcases parameters_step h with hhost | ⟨num, pvar, ps, size, failed, hop, _, hdec⟩
  · cases hhost _ hi
  · refine ⟨num, pvar, ps, size, hop, ?_⟩
    cases hdec with
    | whole _ hsplit hpost => exact (readWstr_mem_whole hsplit hpost i).mp hi
    | broken hk _ _ htrace _ _ =>
      have hik := (htrace i).mp hi
      omega

theorem contacts_step (h : stepProcess platform c s = some (o, t)) {pre post : List Event}
    {x : Event} (hx : o.trace = pre ++ x :: post) (hkafka : x.contactsKafka = true) :
    ∃ num pvar ps size, c.op = .request (.callAsFunc num pvar ps size) ∧ 0 < getNParams num ∧
      ∀ i < getNParams num, .readWstr i ∈ pre := by
  have hmem : x ∈ o.trace := hx ▸ List.mem_append_right _ List.mem_cons_self
  rcases parameters_step h with hhost | ⟨num, pvar, ps, size, failed, hop, hpos, hdec⟩
  · have hx := hhost x hmem
    cases x <;> simp_all [Event.ofHost, Event.contactsKafka]
  · refine ⟨num, pvar, ps, size, hop, hpos, ?_⟩
    cases hdec with
    | @whole p later hdec hsplit hlater =>
      intro i hi
      have hread : .readWstr i ∈ reads (getNParams num) := readWstr_mem_reads.mpr hi
      rcases List.append_eq_append_iff.mp (hsplit.symm.trans hx) with
        ⟨rest, hpre, _⟩ | ⟨rest, hreads, htail⟩
      · exact hpre ▸ List.mem_append_left _ hread
      · -- The reads come first: none of them can be what turns to Kafka.
        cases rest with
        | nil =>
          rw [List.append_nil] at hreads
          exact hreads ▸ hread
        | cons y rest =>
          obtain ⟨rfl, _⟩ := List.cons.inj htail
          have hquiet := contactsKafka_reads x
            (hreads ▸ List.mem_append_right _ List.mem_cons_self)
          rw [hkafka] at hquiet
          cases hquiet
    | broken _ _ _ _ hsilent _ =>
      have hx := hsilent x hmem
      rw [hkafka] at hx
      cases hx

theorem stringToTVariant_true {str : Bytes} {val val' : TVariant} {ok : Bool}
    {r : Except Exit (Bool × TVariant)} (h : Ends (stringToTVariant this a str val) w r w')
    (hok : r.map (fun p => Ret.variant p.1 p.2) = .ok (.variant ok val')) : ok = true := by
  rcases ends_stringToTVariant h with ⟨_, _, rfl, _⟩ | ⟨_, _, rfl, _⟩ | ⟨_, rfl, _⟩
  · cases hok
    rfl
  · cases hok
  · cases hok

theorem valued_step {num : Int} {pvar : TVariant} (h : stepProcess platform c s = some (o, t))
    (hop : c.op = .request (.getPropVal num pvar)) : o.Fits (isPropReadable num) pvar := by
  obtain ⟨this, r, w, hrun, rfl⟩ := request_step h hop
  obtain ⟨r₀, hget, hret⟩ := ends_bind_pure.mp hrun
  rw [isPropReadable_eq]
  rcases ends_getPropVal hget with ⟨hnone, hr, hw⟩ | ⟨prop, hprop, hstr⟩
  · rw [hnone]
    refine ⟨nofun, fun _ => ⟨?_, ?_⟩⟩
    · rw [hret, hr]
      rfl
    · rw [hw]
      rfl
  · rw [hprop]
    refine ⟨?_, nofun⟩
    intro _ ok val hok
    rw [hret] at hok
    exact stringToTVariant_true hstr hok

theorem called_step {num size : Int} {pvar : TVariant}
    (h : stepProcess platform c s = some (o, t))
    (hop : c.op = .request (.callAsFunc num pvar paParams size)) :
    o.Fits (hasRetVal num) pvar := by
  obtain ⟨this, r, w, hrun, rfl⟩ := request_step h hop
  obtain ⟨r₀, hcall, hret⟩ := ends_bind_pure.mp hrun
  rw [hasRetVal_eq]
  have hexit := ends_callAsFunc rfl hcall
  cases hexit with
  | unknown hm =>
    rw [hm]
    exact ⟨nofun, fun _ => ⟨hret, rfl⟩⟩
  | version hm hstr =>
    rw [hm]
    refine ⟨fun _ ok val hok => ?_, nofun⟩
    rw [hret] at hok
    exact stringToTVariant_true hstr hok
  | sent hm _ hstr =>
    rw [hm]
    refine ⟨fun _ ok val hok => ?_, nofun⟩
    rw [hret] at hok
    exact stringToTVariant_true hstr hok
  | notSent hm _ =>
    rw [hm]
    refine ⟨fun _ ok val hok => ?_, nofun⟩
    rw [hret] at hok
    cases hok
  | received hm _ =>
    rw [hm]
    refine ⟨fun _ ok val hok => ?_, nofun⟩
    rw [hret] at hok
    cases hok
    rfl
  | notReceived hm _ =>
    rw [hm]
    refine ⟨fun _ ok val hok => ?_, nofun⟩
    rw [hret] at hok
    cases hok

theorem defaulted_step {num i : Int} {pvar : TVariant}
    (h : stepProcess platform c s = some (o, t))
    (hop : c.op = .request (.getParamDefValue num i pvar)) :
    o.result = .ok (.variant (hasRetVal num) { pvar with vt := vtypeEmpty }) ∧ o.trace = [] := by
  obtain ⟨this, r, w, hrun, rfl⟩ := request_step h hop
  obtain ⟨rfl, rfl⟩ := ends_pure.mp hrun
  refine ⟨?_, rfl⟩
  show Except.ok (Ret.variant (getParamDefValue num i pvar).1 (getParamDefValue num i pvar).2) = _
  unfold getParamDefValue hasRetVal
  cases Methods.ofLong num with
  | none => rfl
  | some m => cases m <;> rfl

/-- In every run the component keeps to what it says of itself. -/
theorem interface_kept (h : ProcessRun platform history s) : ∀ e ∈ history, AsAnnounced e := by
  refine h.entry ?_
  intro c s o t hs
  have hmethods : (0 : Int) ≤ eMethLast := by decide
  have hprops : (0 : Int) ≤ ePropLast := by decide
  refine ⟨?_, ?_, ?_, ?_, fun num i pvar hop => defaulted_step hs hop,
    fun num pvar hop => valued_step hs hop, fun num pvar ps size hop => called_step hs hop,
    fun i hi => reads_step hs hi, fun pre x post hx hkafka => contacts_step hs hx hkafka⟩
  · intro ws num hop hok
    obtain ⟨this, r, w, hrun, rfl⟩ := request_step hs hop
    obtain ⟨r₀, hfind, hret⟩ := ends_bind_pure.mp hrun
    rw [hasRetVal_iff]
    exact searched_range hmethods hfind hret hok
  · intro ws num hop hok
    obtain ⟨this, r, w, hrun, rfl⟩ := request_step hs hop
    obtain ⟨r₀, hfind, hret⟩ := ends_bind_pure.mp hrun
    rw [isPropReadable_iff]
    exact searched_range hprops hfind hret hok
  · intro num lAlias p hop hok
    obtain ⟨this, r, w, hrun, rfl⟩ := request_step hs hop
    obtain ⟨r₀, hname, hret⟩ := ends_bind_pure.mp hrun
    rw [hasRetVal_iff]
    exact methodTables.named_range hname hret hok
  · intro num lAlias p hop hok
    obtain ⟨this, r, w, hrun, rfl⟩ := request_step hs hop
    obtain ⟨r₀, hname, hret⟩ := ends_bind_pure.mp hrun
    rw [isPropReadable_iff]
    exact propTables.named_range hname hret hok

/-- A host that asks for the count of the parameters before it sends. -/
def announcedCalls : List HostCall :=
  newObject 0 ++ [⟨0, .request (.getNParams 1), {}⟩, produceCall 0 {}]

theorem interface_kept_produce :
    (execCalls announcedCalls).1.map Entry.call = announcedCalls ∧
      ∀ e ∈ (execCalls announcedCalls).1, AsAnnounced e :=
  ⟨map_call_execFrom (by decide +kernel), interface_kept (run_execFrom Run.nil _)⟩

end KafkaAddIn
