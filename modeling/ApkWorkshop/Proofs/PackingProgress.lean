import ApkWorkshop.Proofs.PackingSteps

/-!
# Progress of Packing

While a package is packed, a reader is told how far the work has come. `Packing` says that a tool is
at work, with readers that never fail and a clock whose spans can be told; each step keeps it and
adds the progress that it shows. In the end, **the values go up from 10 to 100, or a single 0 follows
them** (`progress_of_packing`), and only in the first case there is something to report.
-/

namespace ApkWorkshop.Tool.PackApk

open Text List

def Measurable (seconds : Double) : Prop :=
  ∃ text, spanText seconds = .ok text

/-- Work began at one of the readings of the clock, and the times of its steps can be told. -/
structure Timed (readings : List Double) (t : PackTimes) : Prop where
  start : ∃ start ∈ readings, t.start = some start
  packing : Measurable t.packing
  keys : Measurable t.keys
  signing : Measurable t.signing

/-- The clock will give some of the readings, and all spans between them can be told. -/
structure Readings (readings : List Double) (outside : Outside) : Prop where
  subset : outside.now :: outside.clock ⊆ readings
  span : ∀ a ∈ readings, ∀ b ∈ readings, Measurable (a.sub b)

/-- A tool is at work: it began at one of the readings of the clock, its readers never fail, and it
has nothing to report yet. -/
structure Packing (id : Nat) (readings : List Double) (shown : List Value) (w : World) : Prop where
  here : id < w.tools.length
  log : (w.tool id).log.TakesAll
  progress : (w.tool id).progress = .recorder []
  report : (w.tool id).report = ""
  times : Timed readings (w.tool id).packing.2.2
  clock : Readings readings w.outside
  shown : w.journal.progress = shown

section

variable {id : Nat} {readings : List Double} {p : List Value} {us : List Int} {w w' : World}

theorem Works.packing (h : Works id us w w') (hp : Packing id readings p w) :
    Packing id readings (p ++ us.map .whole) w' := by
  have hlog : (w'.tool id).log = (w.tool id).log := congrArg Stance.log h.stance
  have htimes : (w'.tool id).packing.2.2 = (w.tool id).packing.2.2 := congrArg Stance.times h.stance
  refine ⟨h.count ▸ hp.here, hlog ▸ hp.log, (congrArg Stance.progress h.stance).trans hp.progress,
    (congrArg Stance.report h.stance).trans hp.report, htimes ▸ hp.times, ?_, ?_⟩
  · exact ⟨by rw [h.now, h.clock]; exact hp.clock.subset, hp.clock.span⟩
  · rw [h.shown hp.progress, hp.shown]

theorem Packing.say (hp : Packing id readings p w) (line : String) :
    ∃ w', Ends (say id line) w () w' ∧ Packing id readings p w' := by
  obtain ⟨w', hends, -⟩ := ends_say hp.log line
  exact ⟨w', hends, by simpa using ((passes_say id line w).of_ends hends).1.packing hp⟩

theorem Packing.showProgress (hp : Packing id readings p w) (v : Int) :
    ∃ w', Ends (showProgress id v) w () w' ∧ Packing id readings (p ++ [.whole v]) w' := by
  have htakes : (w.tool id).progress.TakesAll := by rw [hp.progress]; rfl
  obtain ⟨w', hends, -⟩ := ends_showProgress htakes v
  exact ⟨w', hends, ((passes_showProgress id v w).of_ends hends).1.packing hp⟩

theorem ends_clock (h : Readings readings w.outside) : ∃ now ∈ readings, ∃ outside : Outside,
    Ends Job.clock w now { w with outside } ∧ Readings readings outside := by
  have hsub := cons_subset.mp h.subset
  cases hclock : w.outside.clock with
  | nil =>
    refine ⟨w.outside.now, hsub.1, w.outside, Ends.bind (ends_get.mpr ⟨rfl, rfl⟩) ?_, h⟩
    rw [hclock]
    exact Ends.bind (ends_get.mpr ⟨rfl, rfl⟩) (ends_pure.mpr ⟨rfl, rfl⟩)
  | cons now rest =>
    rw [hclock] at hsub
    refine ⟨now, hsub.2 mem_cons_self, { w.outside with clock := rest, now },
      Ends.bind (ends_get.mpr ⟨rfl, rfl⟩) ?_, hsub.2, h.span⟩
    rw [hclock]
    exact Ends.modify_bind (ends_pure.mpr ⟨rfl, rfl⟩)

theorem Packing.clockRead (hp : Packing id readings p w) :
    ∃ now ∈ readings, ∃ w', Ends Job.clock w now w' ∧ Packing id readings p w' := by
  obtain ⟨now, hnow, outside, hends, hclock⟩ := ends_clock hp.clock
  exact ⟨now, hnow, _, hends, hp.here, hp.log, hp.progress, hp.report, hp.times, hclock, hp.shown⟩

theorem packing_remember {f : PackTimes → PackTimes} (hid : id < w.tools.length)
    (hlog : (w.tool id).log.TakesAll) (hprogress : (w.tool id).progress = .recorder [])
    (hreport : (w.tool id).report = "") (hclock : Readings readings w.outside)
    (htimes : Timed readings (f (w.tool id).packing.2.2)) :
    ∃ w', Ends (remember id f) w () w' ∧ Packing id readings w.journal.progress w' := by
  have hends : Ends (remember id f) w () { w with tools := w.tools.modify id fun t => { t with
      part := .packApk (w.tool id).packing.1 (w.tool id).packing.2.1
        (f (w.tool id).packing.2.2) } } := (ends_target w id).bind (ends_modify.mpr rfl)
  refine ⟨_, hends, ?_, ?_, ?_, ?_, ?_, hclock, rfl⟩
  · simpa using hid
  all_goals rw [World.tool_modify hid]
  exacts [hlog, hprogress, hreport, htimes]

theorem Packing.leaves_stage {α : Type} {vs : List Int} {done : α → Prop}
    {R : Desk → α → Desk → Prop} {job : Job α} {record : Double → PackTimes → PackTimes}
    {f : α × Double → Job Unit} {next : α → Job Unit} {Q : Except Fault Unit → World → Prop}
    (hp : Packing id readings p w) (hjob : ∀ d, Climbs id d vs done (R d) job)
    (hf : ∀ a d, f (a, d) = PackApk.remember id (record d) >>= fun _ => next a)
    (hrecord : ∀ d t, Measurable d → Timed readings t → Timed readings (record d t))
    (hfault : ∀ e us w', us <+: vs → Packing id readings (p ++ us.map .whole) w' → Q (.error e) w')
    (hnext : ∀ a us w', us <+: vs → (done a → us = vs) →
      Packing id readings (p ++ us.map .whole) w' → Leaves (next a) w' Q) :
    Leaves (timed job >>= f) w Q := by
  obtain ⟨start, hstart, w₁, hclock, h₁⟩ := hp.clockRead
  have htimed : Leaves (timed job) w fun r w' => ∃ us, us <+: vs ∧
      Packing id readings (p ++ us.map .whole) w' ∧
      ∀ x, r = .ok x → Measurable x.2 ∧ (done x.1 → us = vs) := by
    refine hclock.leaves_bind ((hjob _ w₁ h₁.here rfl).bind (fun a w₂ ⟨us, hus, hworks, hdone⟩ => ?_)
      fun e w₂ ⟨us, hus, hworks, _⟩ => ⟨us, hus, hworks.packing h₁, nofun⟩)
    obtain ⟨now, hnow, w₃, hclock', h₃⟩ := (hworks.packing h₁).clockRead
    refine hclock'.leaves_bind (leaves_pure ⟨us, hus, h₃, fun x hx => ?_⟩)
    cases hx
    exact ⟨hp.clock.span now hnow start hstart, fun ha => (hdone a rfl ha).1⟩
  refine htimed.bind (fun ⟨a, d⟩ w₂ ⟨us, hus, h₂, hx⟩ => ?_) fun e w₂ ⟨us, hus, h₂, _⟩ =>
    hfault e us w₂ hus h₂
  obtain ⟨w₃, hends, h₃⟩ := packing_remember h₂.here h₂.log h₂.progress h₂.report h₂.clock
    (hrecord d _ (hx _ rfl).1 h₂.times)
  rw [h₂.shown] at h₃
  rw [hf]
  exact hends.leaves_bind (hnext a us w₃ hus (hx _ rfl).2 h₃)

theorem Packing.sayTime (hp : Packing id readings p w) (what : String) {seconds : Double}
    (h : Measurable seconds) :
    ∃ w', Ends (showTimes.sayTime id what seconds) w () w' ∧ Packing id readings p w' := by
  obtain ⟨text, htext⟩ := h
  obtain ⟨w', hends, hp'⟩ := hp.say (what ++ text)
  exact ⟨w', (Job.ends_attempt htext).bind hends, hp'⟩

theorem Packing.showTimes (hp : Packing id readings p w) :
    ∃ w', Ends (showTimes id) w () w' ∧ Packing id readings p w' := by
  obtain ⟨now, hnow, w₁, hclock, h₁⟩ := hp.clockRead
  obtain ⟨start, hstart, hsome⟩ := h₁.times.start
  obtain ⟨w₂, hends₂, h₂⟩ := h₁.say "⏱️  Time summary:"
  obtain ⟨w₃, hends₃, h₃⟩ := h₂.sayTime "   📦 Packaging: " h₁.times.packing
  obtain ⟨w₄, hends₄, h₄⟩ := h₃.sayTime "   🔑 Keystore: " h₁.times.keys
  obtain ⟨w₅, hends₅, h₅⟩ := h₄.sayTime "   🔏 Signing: " h₁.times.signing
  obtain ⟨w₆, hends₆, h₆⟩ := h₅.sayTime "   ⏱️  Total: " (hp.clock.span now hnow start hstart)
  refine ⟨w₆, hclock.bind ((ends_target w₁ id).bind ?_), h₆⟩
  dsimp only
  rw [hsome]
  exact hends₂.bind (hends₃.bind (hends₄.bind (hends₅.bind hends₆)))

end

def stages : List Int := [50, 60, 65, 80, 90]

section

variable {id : Nat} {readings : List Double} {p : List Value} {w w' : World}

def Attempted (id : Nat) (readings : List Double) (p : List Value) (r : Except Fault Unit)
    (w' : World) : Prop :=
  (r = .ok () ∧ w'.journal.progress = p ++ (10 :: stages ++ [100]).map .whole ∧
    (w'.tool id).report = "APK packaged and signed successfully") ∨
  ∃ us, us <+: stages ∧ (r = .ok () ∧ Packing id readings (p ++ (10 :: us ++ [0]).map .whole) w' ∨
      (∃ e, r = .error e) ∧ Packing id readings (p ++ (10 :: us).map .whole) w')

theorem Packing.giveUp {u : List Int} (hus : u <+: stages)
    (hp : Packing id readings (p ++ (10 :: u).map .whole) w) :
    Leaves (Tool.showProgress id 0) w (Attempted id readings p) := by
  obtain ⟨w', hends, h'⟩ := hp.showProgress 0
  refine hends.leaves (.inr ⟨u, hus, .inl ⟨rfl, ?_⟩⟩)
  simpa using h'

/-- **The attempt**: each step begins where the one before has left the progress. -/
theorem Packing.leaves_attempted (hp : Packing id readings p w) :
    Leaves (packAndSign.attempted id) w (Attempted id readings p) := by
  obtain ⟨w₁, hends₁, h₁⟩ := hp.say "📦 Starting APK packaging and signing..."
  obtain ⟨w₂, hends₂, h₂⟩ := h₁.showProgress 10
  refine hends₁.leaves_bind (hends₂.leaves_bind ?_)
  refine h₂.leaves_stage (climbs_build id) (fun _ _ => rfl)
    (fun d t hd ht => ⟨ht.start, hd, ht.keys, ht.signing⟩) (fun e us w' hus h => ?_)
    fun package us w₃ hus _ h₃ => ?_
  · obtain rfl := prefix_nil.mp hus
    exact .inr ⟨[], nil_prefix, .inr ⟨⟨e, rfl⟩, by simpa using h⟩⟩
  obtain rfl := prefix_nil.mp hus
  cases package with
  | none => exact Packing.giveUp nil_prefix (by simpa using h₃)
  | some package =>
    obtain ⟨w₄, hends₄, h₄⟩ := h₃.showProgress 50
    refine hends₄.leaves_bind ?_
    refine h₄.leaves_stage (climbs_keyData id) (fun _ _ => rfl)
      (fun d t hd ht => ⟨ht.start, ht.packing, hd, ht.signing⟩) (fun e us w' hus h => ?_)
      fun key us w₅ hus _ h₅ => ?_
    · obtain rfl := prefix_nil.mp hus
      exact .inr ⟨[50], by decide, .inr ⟨⟨e, rfl⟩, by simpa using h⟩⟩
    obtain rfl := prefix_nil.mp hus
    cases key with
    | none => exact Packing.giveUp (u := [50]) (by decide) (by simpa using h₅)
    | some key =>
      obtain ⟨w₆, hends₆, h₆⟩ := h₅.showProgress 60
      refine hends₆.leaves_bind ?_
      have hstages : ∀ us, us <+: [65, 80, 90] → 50 :: 60 :: us <+: stages := fun us hus =>
        cons_prefix_cons.mpr ⟨rfl, cons_prefix_cons.mpr ⟨rfl, hus⟩⟩
      refine h₆.leaves_stage (climbs_sign id · package key) (fun _ _ => rfl)
        (fun d t hd ht => ⟨ht.start, ht.packing, ht.keys, hd⟩)
        (fun e us w' hus h => .inr ⟨50 :: 60 :: us, hstages us hus, .inr ⟨⟨e, rfl⟩, by
          simpa using h⟩⟩)
        fun success us w₇ hus hdone h₇ => ?_
      cases success with
      | false =>
        obtain ⟨w₈, hends₈, h₈⟩ := h₇.showProgress 0
        obtain ⟨w₉, hends₉, h₉⟩ := h₈.say "❌ APK signing failed"
        refine hends₈.leaves_bind (hends₉.leaves ?_)
        exact .inr ⟨50 :: 60 :: us, hstages us hus, .inl ⟨rfl, by simpa using h₉⟩⟩
      | true =>
        obtain rfl := hdone rfl
        obtain ⟨w₈, hends₈, h₈⟩ := h₇.showProgress 100
        obtain ⟨w₉, hends₉, h₉⟩ := h₈.showTimes
        refine hends₈.leaves_bind (hends₉.leaves_bind (leaves_modify_bind ?_))
        have htool := World.tool_modify h₉.here fun t => { t with
          report := "APK packaged and signed successfully" }
        obtain ⟨w', hends, -⟩ := ends_say (w := { w₉ with tools := w₉.tools.modify id _ })
          (by rw [htool]; exact h₉.log) "✅ APK packaging and signing completed."
        have hworks := ((passes_say id _ _).of_ends hends).1
        refine hends.leaves (.inl ⟨rfl, ?_, ?_⟩)
        · rw [hworks.shown (by rw [htool]; exact h₉.progress)]
          simpa [stages] using h₉.shown
        · exact (congrArg Stance.report hworks.stance).trans (by rw [htool]; rfl)

end

theorem measurable_of_finite {x : Double} {s : Bool} {m : Nat} (h : x.value = .finite s m) :
    Measurable x := by
  rw [Measurable, spanText]
  split
  · exact ⟨_, rfl⟩
  split
  · exact ⟨_, rfl⟩
  · rw [Double.floorDivNat?, h]
    exact ⟨_, rfl⟩

/-- The percentages begin with 10 and go up. -/
def Rises (trace : List Int) : Prop :=
  trace.head? = some 10 ∧ trace.Pairwise (· < ·)

theorem rises_of_prefix {us : List Int} (h : us <+: stages) :
    Rises (10 :: us) ∧ 100 ∉ 10 :: us := by
  have hall : (10 :: stages).Pairwise (· < ·) ∧ 100 ∉ 10 :: stages := by decide
  have hsub : (10 :: us).Sublist (10 :: stages) := h.sublist.cons_cons 10
  exact ⟨⟨rfl, hall.1.sublist hsub⟩, fun hmem => hall.2 (hsub.subset hmem)⟩

/-- **Progress of packing.** A tool that was just made shows values that go up from 10. They end
with 100 if the package was signed; otherwise a single 0 comes last, and there is no report. -/
theorem progress_of_packing {id : Nat} {w : World} {name output : String}
    (hid : id < w.tools.length) (hpart : (w.tool id).part = .packApk name output {})
    (hreport : (w.tool id).report = "") (hlog : (w.tool id).log.TakesAll)
    (hprogress : (w.tool id).progress = .recorder [])
    (hclock : ∀ a ∈ w.outside.now :: w.outside.clock, ∀ b ∈ w.outside.now :: w.outside.clock,
      ∃ s m, (a.sub b).value = .finite s m) :
    ∃ w' trace, Ends (packAndSign id) w () w' ∧
      w'.journal.progress = w.journal.progress ++ trace.map .whole ∧
      ((Rises trace ∧ trace.getLast? = some 100 ∧
          (w'.tool id).report = "APK packaged and signed successfully") ∨
        ∃ rising, trace = rising ++ [0] ∧ Rises rising ∧ 100 ∉ rising ∧
          (w'.tool id).report = "") := by
  have hreadings : Readings (w.outside.now :: w.outside.clock) w.outside :=
    ⟨List.Subset.refl _, fun a ha b hb => by
      obtain ⟨s, m, h⟩ := hclock a ha b hb
      exact measurable_of_finite h⟩
  have hzero : Measurable (.ofInt 0) := measurable_of_finite (s := false) (m := 0) (by decide +kernel)
  obtain ⟨start, hstart, outside, hread, hreadings'⟩ := ends_clock hreadings
  have hpacking : (({ w with outside } : World).tool id).packing.2.2 = {} := by
    rw [packing, show ({ w with outside } : World).tool id = w.tool id from rfl, hpart]
  obtain ⟨w₁, hremember, hp⟩ := packing_remember (w := { w with outside })
    (f := fun t => { t with start := some start }) hid hlog hprogress hreport hreadings'
    (by rw [hpacking]; exact ⟨⟨start, hstart, rfl⟩, hzero, hzero, hzero⟩)
  have hends : Leaves (packAndSign id) w fun r w' => ∃ a, r = .ok a ∧
      Attempted id (w.outside.now :: w.outside.clock) w.journal.progress (.ok a) w' := by
    refine hread.leaves_bind (hremember.leaves_bind ?_)
    refine Job.leaves_orElse (hp.leaves_attempted) (fun a w' h => ⟨a, rfl, h⟩) fun e w₂ h => ?_
    obtain ⟨h, -⟩ | ⟨us, hus, ⟨h, -⟩ | ⟨-, h₂⟩⟩ := h
    · cases h
    · cases h
    obtain ⟨w₃, hsay, h₃⟩ := h₂.say ("❌ Packaging error: " ++ e.message)
    obtain ⟨w₄, hshow, h₄⟩ := h₃.showProgress 0
    exact hsay.leaves_bind (hshow.leaves ⟨(), rfl, .inr ⟨us, hus, .inl ⟨rfl, by simpa using h₄⟩⟩⟩)
  obtain ⟨a, w', hends, hresult⟩ := hends.exists_ends
  obtain ⟨-, hshown, hdone⟩ | ⟨us, hus, ⟨-, hp'⟩ | ⟨⟨e, he⟩, -⟩⟩ := hresult
  · exact ⟨w', _, hends, hshown, .inl ⟨⟨rfl, by decide⟩, rfl, hdone⟩⟩
  · obtain ⟨hrises, hnot⟩ := rises_of_prefix hus
    exact ⟨w', 10 :: us ++ [0], hends, hp'.shown, .inr ⟨10 :: us, rfl, hrises, hnot, hp'.report⟩⟩
  · cases he

/-- With a builder that leaves the package, the whole way up is shown. -/
theorem progress_of_packing_readyToPack :
    ∃ w' trace, Ends (packAndSign 0) (readyToPack [{ made := [(.word 6, some [])] }]) () w' ∧
      w'.journal.progress = [] ++ trace.map .whole ∧ trace = [10, 50, 60, 65, 80, 90, 100] ∧
      Rises trace ∧ trace.getLast? = some 100 ∧
      (w'.tool 0).report = "APK packaged and signed successfully" := by
  have hpart : ((readyToPack [{ made := [(.word 6, some [])] }]).tool 0).part =
    .packApk "x" "o" {} := rfl
  obtain ⟨w', trace, hends, hshown, h⟩ := progress_of_packing (by decide) hpart rfl trivial rfl
      fun a ha b hb => by
    obtain rfl := mem_singleton.mp ha
    obtain rfl := mem_singleton.mp hb
    exact ⟨false, 0, by decide +kernel⟩
  obtain rfl : ((packAndSign 0).doneIn (readyToPack [{ made := [(.word 6, some [])] }])).2 = w' :=
    congrArg Prod.snd hends
  refine ⟨_, trace, hends, hshown, ?_, ?_⟩
  · have hvalues := congrArg (List.filterMap Value.asWhole?) hshown
    have htrace : (trace.map Value.whole).filterMap Value.asWhole? = trace := by
      rw [filterMap_map]
      exact filterMap_some
    exact htrace.symm.trans (hvalues.symm.trans (by decide +kernel))
  · obtain h | ⟨-, -, -, -, h⟩ := h
    · exact h
    · exact absurd h (by decide +kernel)

end ApkWorkshop.Tool.PackApk
