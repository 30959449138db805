import KafkaAddIn.ClientLifetime

namespace KafkaAddIn

open Foundation

variable {platform : Platform} {this : CKafka} {a : Answers} {w w' : World}
  {paParams : Nat → TVariant} {c : HostCall} {s t : Process} {o : Outcome} {history : History}

def Ret.failed : Ret → Bool
  | .flag ok => !ok
  | .number _ => false
  | .name p => p.isNone
  | .extension ok _ => !ok
  | .variant ok _ => !ok

def Request.returnsString : Request → Prop
  | .registerExtensionAs => True
  | .getPropName _ _ => True
  | .getMethodName _ _ => True
  | .getPropVal lPropNum _ => Props.ofLong lPropNum ≠ none
  | .callAsFunc lMethodNum _ _ _ =>
    Methods.ofLong lMethodNum = some .eGetInfo ∨ Methods.ofLong lMethodNum = some .eProduce
  | _ => False

/-- There is no memory manager, or it has been asked and has failed. -/
def Starved (this : CKafka) (trace : List Event) : Prop :=
  this.mIMemory = false ∨ ∃ n, .allocMemory n false ∈ trace

structure ReportsFailure (o : Outcome) : Prop where
  reported : ∃ ret, o.result = .ok ret ∧ ret.failed = true
  noWildWrite : .wildWrite ∉ o.trace
  noUnsetText : ∀ ok val, o.result = .ok (.variant ok val) → val.vt = vtypePstr →
    val.pstrVal ≠ none

/-- What a request answered with a string owes the host when there is no memory. -/
def ToldWhenStarved (this : CKafka) (request : Request) (o : Outcome) : Prop :=
  request.returnsString → Starved this o.trace → ReportsFailure o

/-- The values need memory. The names do not, but an index below zero is read in front of
the table. `RegisterExtensionAs` does not look at what its allocation gave. -/
def MemorySuffices (this : CKafka) (a : Answers) : Request → Prop
  | .registerExtensionAs => this.mIMemory = true → a.alloc = true
  | .getPropName lPropNum lPropAlias =>
    this.mIMemory = true ∨ 0 ≤ lPropNum ∨ (lPropAlias ≠ 0 ∧ lPropAlias ≠ 1)
  | .getMethodName lMethodNum lMethodAlias =>
    this.mIMemory = true ∨ 0 ≤ lMethodNum ∨ (lMethodAlias ≠ 0 ∧ lMethodAlias ≠ 1)
  | .getPropVal lPropNum _ =>
    Props.ofLong lPropNum ≠ none → this.mIMemory = true ∧ a.alloc = true
  | .callAsFunc lMethodNum _ paParams _ =>
    (Methods.ofLong lMethodNum = some .eGetInfo → this.mIMemory = true ∧ a.alloc = true) ∧
      (Methods.ofLong lMethodNum = some .eProduce →
        this.mIMemory = true ∧ (a.alloc = true ∨ Unreadable a paParams 6))
  | _ => True

theorem toldWhenStarved_iff (request : Request) (h : request.returnsString) :
    ToldWhenStarved this request o ↔ (Starved this o.trace → ReportsFailure o) :=
  forall_prop_of_true h

theorem not_reportsFailure_error {e : Exit} {trace : List Event} :
    ¬ ReportsFailure ⟨.error e, trace⟩ := by
  intro h
  obtain ⟨ret, hret, _⟩ := h.reported
  cases hret

theorem not_starved {trace : List Event} (hset : this.mIMemory = true)
    (hnone : ∀ n, .allocMemory n false ∉ trace) : ¬ Starved this trace := by
  intro hstarved
  rcases hstarved with hnull | ⟨n, hfail⟩
  · rw [hset] at hnull
    cases hnull
  · exact hnone n hfail

/-- A call that ends the process before it has asked for memory: only without a manager is
that laid to the lack of memory. -/
theorem told_error_iff {e : Exit} {trace : List Event} (hnone : ∀ n, .allocMemory n false ∉ trace) :
    (Starved this trace → ReportsFailure ⟨.error e, trace⟩) ↔ this.mIMemory = true := by
  constructor
  · intro htold
    by_contra hnull
    have hstarved : Starved this trace := Or.inl (by simpa using hnull)
    exact not_reportsFailure_error (htold hstarved)
  · intro hset hstarved
    exact absurd hstarved (not_starved hset hnone)

theorem told_stringToTVariant {str : Bytes} {val : TVariant} {r : Except Exit (Bool × TVariant)}
    (h : Ends (stringToTVariant this a str val) w r w')
    (hclean : ∀ e ∈ w.trace, e.ofHost = false) :
    (Starved this w'.trace → ReportsFailure ⟨r.map fun p => .variant p.1 p.2, w'.trace⟩) ↔
      this.mIMemory = true ∧ a.alloc = true := by
  rcases ends_stringToTVariant h with ⟨hset, halloc, rfl, rfl⟩ | ⟨hset, hno, rfl, rfl⟩ |
    ⟨hnull, rfl, rfl⟩
  · refine iff_of_true ?_ ⟨hset, halloc⟩
    have hnone : ∀ n, .allocMemory n false ∉
        (w.after 0 [.allocMemory (str.length + 1) true]).trace := by
      intro n hfail
      rcases List.mem_append.mp hfail with hfail | hfail
      · cases hclean _ hfail
      · cases List.mem_singleton.mp hfail
    intro hstarved
    exact absurd hstarved (not_starved hset hnone)
  · refine iff_of_false ?_ fun h => by simp [hno] at h
    intro htold
    have hfail : .allocMemory (str.length + 1) false ∈
        (w.after 0 [.allocMemory (str.length + 1) false, .wildWrite]).trace := by simp
    exact not_reportsFailure_error (htold (Or.inr ⟨_, hfail⟩))
  · refine iff_of_false ?_ fun h => by simp [hnull] at h
    intro htold
    exact not_reportsFailure_error (htold (Or.inl hnull))

theorem ProduceExit.ofHost_false {r : Except Exit String} (h : ProduceExit a paParams w r w')
    (htr : w.trace = []) : ∀ e ∈ w'.trace, e.ofHost = false := by
  intro e he
  rcases h.cases with ⟨p, _, _, _, rfl⟩ | ⟨p, _, _, _, rfl⟩ | ⟨_, ⟨k, es, rfl, hearly⟩, _⟩
  · rw [World.after_trace, htr, List.nil_append] at he
    rcases List.mem_append.mp he with he | he
    · rcases mem_enqueueEvents he with ⟨_, rfl⟩ | rfl | ⟨_, _, _, rfl⟩ | rfl | rfl | rfl | rfl <;> rfl
    · rcases mem_deliverEvents he with rfl | ⟨_, rfl⟩ | rfl | rfl <;> rfl
  · rw [World.after_trace, htr, List.nil_append] at he
    rcases List.mem_append.mp he with he | he
    · rcases mem_enqueueEvents he with ⟨_, rfl⟩ | rfl | ⟨_, _, _, rfl⟩ | rfl | rfl | rfl | rfl <;> rfl
    · split at he
      · rw [List.mem_singleton.mp he]
        rfl
      · cases he
  · rw [World.after_trace, htr, List.nil_append] at he
    have hquiet := hearly e he
    cases e <;> first | rfl | cases hquiet

theorem ends_nameToHost {name : List Wchar} {r : Except Exit (Option (List ShortWchar))}
    (h : Ends (nameToHost platform this a name) w r w') (hset : this.mIMemory = true) :
    (∃ e, wcslen name = .error e ∧ r = .error e ∧ w' = w) ∨
    (∃ n, w' = w.after 0 [.allocMemory n a.alloc] ∧ (a.alloc = false → r = .ok none)) := by
  unfold nameToHost at h
  cases hlen : wcslen name with
  | error e =>
    rw [hlen] at h
    obtain ⟨rfl, rfl⟩ := ends_throw_bind.mp h
    exact Or.inl ⟨e, rfl, rfl, rfl⟩
  | ok n =>
    rw [hlen] at h
    rcases ends_bind.mp h with ⟨n', t, hn, h⟩ | ⟨e, hn, _⟩
    · obtain ⟨hn', rfl⟩ := ends_lift.mp hn
      cases hn'
      rcases ends_bind.mp h with ⟨dest, u, halloc, h⟩ | ⟨e, halloc, _⟩
      · rcases ends_allocMemory halloc with ⟨_, rfl, hdest⟩ | ⟨hnull, _⟩
        · refine Or.inr ⟨(n + 1) * 2, ?_⟩
          by_cases ha : a.alloc = true
          · rw [if_pos ha] at hdest
            cases hdest
            obtain ⟨r₀, hlift, _⟩ := ends_bind_pure.mp h
            exact ⟨(ends_lift.mp hlift).2, fun hno => by simp [ha] at hno⟩
          · rw [if_neg ha] at hdest
            cases hdest
            obtain ⟨rfl, rfl⟩ := ends_pure.mp h
            exact ⟨rfl, fun _ => rfl⟩
        · simp [hset] at hnull
      · rcases ends_allocMemory halloc with ⟨_, _, hdest⟩ | ⟨hnull, _⟩
        · cases hdest
        · simp [hset] at hnull
    · cases (ends_lift.mp hn).1

theorem reportsFailure_noName {trace : List Event} (h : .wildWrite ∉ trace) :
    ReportsFailure ⟨.ok (.name none), trace⟩ :=
  ⟨⟨_, rfl, rfl⟩, h, nofun⟩

theorem starved_nameToHost {name : List Wchar} {r : Except Exit (Option (List ShortWchar))}
    (htr : w.trace = []) (h : Ends (nameToHost platform this a name) w r w')
    (hset : this.mIMemory = true) (hstarved : Starved this w'.trace) :
    ReportsFailure ⟨r.map .name, w'.trace⟩ := by
  rcases hstarved with hnull | ⟨m, hfail⟩
  · simp [hset] at hnull
  · rcases ends_nameToHost h hset with ⟨e, _, _, rfl⟩ | ⟨n, rfl, hnone⟩
    · simp [htr] at hfail
    · simp only [World.after_trace, htr, List.nil_append, List.mem_singleton,
        Event.allocMemory.injEq] at hfail
      rw [hnone hfail.2.symm]
      exact reportsFailure_noName (by simp [htr])

/-- A name getter answers with null before it asks for memory, reads in front of its table,
or goes on to copy a name. -/
theorem ends_getNameOf {names namesRu : List (List Wchar)} {last num lAlias : Int}
    {r : Except Exit (Option (List ShortWchar))} (hlast : 0 ≤ last)
    (hsize : last ≤ names.length) (hsizeRu : last ≤ namesRu.length)
    (h : Ends (getNameOf platform names namesRu last this a num lAlias) w r w') :
    (r = .ok none ∧ w' = w ∧ (0 ≤ num ∨ (lAlias ≠ 0 ∧ lAlias ≠ 1))) ∨
    (r = .error .fault ∧ w' = w ∧ num < 0 ∧ (lAlias = 0 ∨ lAlias = 1)) ∨
    (this.mIMemory = true ∧ 0 ≤ num ∧ ∃ name, Ends (nameToHost platform this a name) w r w') := by
  unfold getNameOf at h
  by_cases hnum : last ≤ num
  · rw [if_pos hnum] at h
    obtain ⟨rfl, rfl⟩ := ends_pure.mp h
    exact Or.inl ⟨rfl, rfl, Or.inl (Int.le_trans hlast hnum)⟩
  · rw [if_neg hnum] at h
    by_cases halias : lAlias = 0 ∨ lAlias = 1
    · rw [if_pos halias] at h
      by_cases hneg : num < 0
      · have hfault : nameAt (if lAlias = 0 then names else namesRu) num = .error .fault :=
          if_pos hneg
        rw [hfault] at h
        obtain ⟨rfl, rfl⟩ := ends_throw_bind.mp h
        exact Or.inr (Or.inl ⟨rfl, rfl, hneg, halias⟩)
      · have hin : num.toNat < (if lAlias = 0 then names else namesRu).length := by
          split <;> omega
        have hname : ∃ name, nameAt (if lAlias = 0 then names else namesRu) num = .ok name := by
          unfold nameAt
          rw [if_neg hneg, List.getElem?_eq_getElem hin]
          exact ⟨_, rfl⟩
        obtain ⟨name, hname⟩ := hname
        rw [hname] at h
        have hcopy := (ends_bind_of_ok (ends_lift.mpr ⟨rfl, rfl⟩)).mp h
        by_cases hset : this.mIMemory = true
        · rw [if_pos hset] at hcopy
          exact Or.inr (Or.inr ⟨hset, by omega, name, hcopy⟩)
        · rw [if_neg hset] at hcopy
          obtain ⟨rfl, rfl⟩ := ends_pure.mp hcopy
          exact Or.inl ⟨rfl, rfl, Or.inl (by omega)⟩
    · rw [if_neg halias] at h
      obtain ⟨rfl, rfl⟩ := ends_pure.mp h
      exact Or.inl ⟨rfl, rfl, Or.inr (by omega)⟩

theorem told_getNameOf {names namesRu : List (List Wchar)} {last num lAlias : Int}
    {r : Except Exit (Option (List ShortWchar))} (hlast : 0 ≤ last)
    (hsize : last ≤ names.length) (hsizeRu : last ≤ namesRu.length) (htr : w.trace = [])
    (h : Ends (getNameOf platform names namesRu last this a num lAlias) w r w') :
    (Starved this w'.trace → ReportsFailure ⟨r.map .name, w'.trace⟩) ↔
      this.mIMemory = true ∨ 0 ≤ num ∨ (lAlias ≠ 0 ∧ lAlias ≠ 1) := by
  rcases ends_getNameOf hlast hsize hsizeRu h with ⟨rfl, rfl, hnull⟩ | ⟨rfl, rfl, hneg, halias⟩ |
    ⟨hset, _, name, hcopy⟩
  · refine iff_of_true ?_ (Or.inr hnull)
    intro _
    exact reportsFailure_noName (by simp [htr])
  · have hnot : ¬ (0 ≤ num ∨ (lAlias ≠ 0 ∧ lAlias ≠ 1)) := by omega
    rw [or_iff_left hnot]
    exact told_error_iff (by simp [htr])
  · refine iff_of_true ?_ (Or.inl hset)
    intro hstarved
    exact starved_nameToHost htr hcopy hset hstarved

/-- Registration says true whether or not the name could be copied. -/
theorem told_registerExtensionAs {r : Except Exit (Bool × Option (List ShortWchar))}
    (htr : w.trace = []) (h : Ends (registerExtensionAs platform this a) w r w') :
    (Starved this w'.trace → ReportsFailure ⟨r.map fun p => .extension p.1 p.2, w'.trace⟩) ↔
      (this.mIMemory = true → a.alloc = true) := by
  unfold registerExtensionAs at h
  by_cases hset : this.mIMemory = true
  · rw [if_pos hset] at h
    obtain ⟨r₀, hname, rfl⟩ := ends_bind_pure.mp h
    have hlen : ∃ n, wcslen (wide "AddInNativeExtension") = .ok n := ⟨20, by decide +kernel⟩
    rcases ends_nameToHost hname hset with ⟨e, herr, _⟩ | ⟨n, rfl, hnone⟩
    · obtain ⟨n, hok⟩ := hlen
      rw [hok] at herr
      cases herr
    · cases ha : a.alloc with
      | true =>
        refine iff_of_true ?_ fun _ => rfl
        intro hstarved
        exact absurd hstarved (not_starved hset (by simp [htr]))
      | false =>
        refine iff_of_false ?_ fun hsuffices => absurd (hsuffices hset) nofun
        intro htold
        have hfail : .allocMemory n false ∈ (w.after 0 [.allocMemory n false]).trace := by simp
        have hreport := htold (Or.inr ⟨n, hfail⟩)
        obtain ⟨ret, hret, hfailed⟩ := hreport.reported
        rw [hnone ha] at hret
        cases hret
        cases hfailed
  · rw [if_neg hset] at h
    obtain ⟨rfl, rfl⟩ := ends_pure.mp h
    refine iff_of_true ?_ fun h => absurd h hset
    intro _
    exact ⟨⟨_, rfl, rfl⟩, by simp [htr], nofun⟩

theorem told_callAsFunc {lMethodNum lSizeArray : Int} {pvar : TVariant}
    {r : Except Exit (Bool × TVariant)} (htr : w.trace = [])
    (h : Ends (callAsFunc this a lMethodNum pvar paParams lSizeArray) w r w') :
    ToldWhenStarved this (.callAsFunc lMethodNum pvar paParams lSizeArray)
        ⟨r.map fun p => .variant p.1 p.2, w'.trace⟩ ↔
      MemorySuffices this a (.callAsFunc lMethodNum pvar paParams lSizeArray) := by
  have hclean : ∀ e ∈ w.trace, e.ofHost = false := by simp [htr]
  unfold ToldWhenStarved Request.returnsString MemorySuffices
  cases ends_callAsFunc htr h with
  | unknown hm => simp [hm]
  | version hm hstr => simpa [hm] using told_stringToTVariant hstr hclean
  | sent hm hprod hstr =>
    have hread := hprod.isOk.mp rfl
    simpa [hm, hread] using told_stringToTVariant hstr (hprod.ofHost_false htr)
  | notSent hm hprod =>
    have hun : Unreadable a paParams 6 := by
      by_contra hread
      exact absurd (hprod.isOk.mpr hread) nofun
    simp only [hm, reduceCtorEq, Option.some.injEq, or_true, true_implies, false_implies, hun,
      and_true, true_and]
    apply told_error_iff
    intro n hfail
    cases hprod.ofHost_false htr _ hfail
  | received hm _ => simp [hm]
  | notReceived hm _ => simp [hm]

theorem told_runRequest {request : Request} {r : Except Exit Ret} (htr : w.trace = [])
    (h : Ends (runRequest platform this a request) w r w') :
    ToldWhenStarved this request ⟨r, w'.trace⟩ ↔ MemorySuffices this a request := by
  cases request with
  | registerExtensionAs =>
    obtain ⟨r₀, hreg, rfl⟩ := ends_bind_pure.mp h
    exact (toldWhenStarved_iff .registerExtensionAs trivial).trans (told_registerExtensionAs htr hreg)
  | getPropName num lAlias =>
    obtain ⟨r₀, hname, rfl⟩ := ends_bind_pure.mp h
    exact (toldWhenStarved_iff (.getPropName num lAlias) trivial).trans
      (told_getNameOf (by decide) (by decide) (by decide) htr hname)
  | getMethodName num lAlias =>
    obtain ⟨r₀, hname, rfl⟩ := ends_bind_pure.mp h
    exact (toldWhenStarved_iff (.getMethodName num lAlias) trivial).trans
      (told_getNameOf (by decide) (by decide) (by decide) htr hname)
  | getPropVal num pvar =>
    obtain ⟨r₀, hget, rfl⟩ := ends_bind_pure.mp h
    unfold ToldWhenStarved Request.returnsString MemorySuffices
    rcases ends_getPropVal hget with ⟨hnone, _⟩ | ⟨prop, hsome, hstr⟩
    · simp [hnone]
    · simpa [hsome] using told_stringToTVariant hstr (by simp [htr])
  | callAsFunc num pvar ps size =>
    obtain ⟨r₀, hcall, rfl⟩ := ends_bind_pure.mp h
    exact told_callAsFunc htr hcall
  | findProp name => exact iff_of_true (fun hstring => hstring.elim) trivial
  | findMethod name => exact iff_of_true (fun hstring => hstring.elim) trivial
  | getNParams num => exact iff_of_true (fun hstring => hstring.elim) trivial
  | getParamDefValue num param pvar => exact iff_of_true (fun hstring => hstring.elim) trivial

def TellsHost (e : Entry Process HostCall Outcome) : Prop :=
  ∀ request this, e.call.op = .request request → e.before.objects e.call.obj = some this →
    ToldWhenStarved this request e.outcome

def FindsMemory (e : Entry Process HostCall Outcome) : Prop :=
  ∀ request this, e.call.op = .request request → e.before.objects e.call.obj = some this →
    MemorySuffices this e.call.answers request

theorem tellsHost_step (h : stepProcess platform c s = some (o, t)) :
    TellsHost ⟨s, c, o, t⟩ ↔ FindsMemory ⟨s, c, o, t⟩ := by
  obtain ⟨_, ⟨l, _, _, hl, _⟩ | ⟨request, this, r, w, hreq, hthis, hrun, rfl, rfl⟩⟩ :=
    stepProcess_cases h
  · have hnone : ∀ request, c.op ≠ .request request := by
      intro request hreq
      rw [hl] at hreq
      cases hreq
    refine iff_of_true ?_ ?_
    · intro request this hreq
      exact absurd hreq (hnone request)
    · intro request this hreq
      exact absurd hreq (hnone request)
  · have htold := told_runRequest rfl hrun
    constructor
    · intro htells request' this' hreq' hthis'
      cases hreq.symm.trans hreq'
      cases hthis.symm.trans hthis'
      exact htold.mp (htells request this hreq hthis)
    · intro hfinds request' this' hreq' hthis'
      cases hreq.symm.trans hreq'
      cases hthis.symm.trans hthis'
      exact htold.mpr (hfinds request this hreq hthis)

/-- The names are answered with null when memory is lacking; the values are written all the
same, and registration says true. -/
theorem tellsHost_iff (h : ProcessRun platform history s) :
    (∀ e ∈ history, TellsHost e) ↔ ∀ e ∈ history, FindsMemory e := by
  apply h.forall_entry_iff
  intro c s o t hs
  exact tellsHost_step hs

def starvedNameCall (obj : ObjId) : HostCall :=
  ⟨obj, .request (.getMethodName 0 1), { alloc := false }⟩

theorem tellsHost_name :
    let run := execCalls (newObject 0 ++ [starvedNameCall 0])
    (∀ e ∈ run.1, TellsHost e) ↔ ∀ e ∈ run.1, FindsMemory e :=
  tellsHost_iff (run_execFrom Run.nil _)

/-- Message is read when the host has no memory left: the copy goes through a null
pointer. -/
theorem starvedRead_not_told :
    let run := execCalls (newObject 0 ++
      [⟨0, .request (.getPropVal 0 {}), { alloc := false }⟩])
    ProcessRun .other run.1 run.2 ∧ ¬ ∀ e ∈ run.1, TellsHost e := by
  intro run
  refine ⟨run_execFrom Run.nil _, ?_⟩
  intro h
  have htold := h _ (List.mem_of_getElem? (rfl : run.1[2]? = some _)) _ _ rfl rfl
  have hstring : Props.ofLong 0 ≠ none := by decide
  have hreport := htold hstring (Or.inr ⟨1, by decide +kernel⟩)
  exact hreport.noWildWrite (by decide +kernel)

end KafkaAddIn
