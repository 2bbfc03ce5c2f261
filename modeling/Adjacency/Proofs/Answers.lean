import Adjacency.CommandLine.Report
import Adjacency.Proofs.ConfigRange
import Adjacency.Proofs.Oldest

/-!
# What is printed

The answer to a traversal is determined by the population and the limit, the line with the size of the
batches aside. A configuration decides whether there is an answer, and how fast.

* `printed`: the lines for a population.
* `Prepared.Ready`, `ready_of_ofTask`: what is prepared for a task.
* `Prepared.Ready.lines_eq`, `Prepared.Ready.exists_report`: what is reported, and that there is a report.
* `Invocation.Answered`: the program answers a traversal, under a configuration without a timeout.
* `Invocation.answered_of_evaluates`: there is an answer when the persons fit one batch.
* `answers_agree`: **two answers to the same traversal** name the same sizes and the same rows.
-/

namespace Adjacency.CommandLine

open Metered Population

variable {p : Population} {config : EngineConfig} {limit : Nat} {override : Option Nat} {q : Prepared}

/-- The line of a pair: who knows, who is known, and the age and the name of the latter. -/
def pairText (p : Population) (x : Nat × Nat) : String :=
  "  " ++ toString x.1 ++ " -> " ++ toString x.2 ++ "  age=" ++ toString (p.age x.2) ++ "  name=" ++ name x.2

/-- The lines for a population, with the head of a ranking of its pairs. -/
def printed (p : Population) (ranking : List (Nat × Nat)) (limit batchSize : Nat) : List String :=
  ["nodes: " ++ toString p.nodes, "edges: " ++ toString (p.nodes * p.degree),
    "batch size: " ++ toString batchSize, "rows: " ++ toString (min limit ranking.length),
    "timed out: false"] ++ (ranking.take limit).map (pairText p)

/-! ## Rows -/

theorem nodeText_eq {r : Record} {slot k : Nat} (hr : r.node? slot = some (.ofNat k)) (hk : k < maxDim) :
    nodeText r slot = toString k := by
  have hword : (NodeId.ofNat k).word.toInt64.toInt = k := Int64.toInt_ofNat_of_lt (Nat.lt_trans hk (by decide))
  rw [nodeText, hr, Option.map_some, hword]
  rfl

theorem rowText_row (hfew : p.nodes ≤ maxDim) {x : Nat × Nat} (hx : x ∈ p.pairs) :
    rowText (p.row x) = pairText p x := by
  obtain ⟨hsrc, hdst⟩ := lt_of_mem_pairs hx
  rw [rowText, pairText, nodeText_eq (node?_row_zero x) (Nat.lt_of_lt_of_le hsrc hfew),
    nodeText_eq (node?_row_one x) (Nat.lt_of_lt_of_le hdst hfew), ageText, nameText, value_row_two,
    value_row_three]
  simp only [toInt_age]
  rfl

/-! ## Preparing a task -/

/-- A graph of the population, and a plan for the query with batches that hold a record. -/
structure Prepared.Ready (p : Population) (limit batchSize : Nat) (q : Prepared) : Prop where
  peopled : p.Peopled terms q.graph
  plan : ∃ options : ExecOptions, options.batchSize = batchSize ∧ q.plan = .new (oldestKnown terms limit) options
  pos : 0 < batchSize
  le : batchSize ≤ maxDim

theorem completed_eq_ok_iff {σ α : Type} {act : Metered σ α} {s u : σ × CallCounts} {a : α} :
    completed act s = .ok (a, u) ↔ act s = .ok a u := by
  unfold completed
  split <;> simp_all

theorem le_maxDim_of_checkLength {n : Nat} {u : Unit} (h : checkLength n = .ok u) : n ≤ maxDim := by
  unfold checkLength at h
  split at h
  · cases h
  · next hlt => exact Nat.le_of_lt (Nat.lt_trans (Nat.lt_of_not_le hlt) (by decide))

/-- **What is prepared for a task**, if anything is. -/
theorem ready_of_ofTask (hrange : config.InRange)
    (h : Prepared.ofTask config ⟨p, override, limit⟩ = .ok q) :
    q.Ready p limit (override.getD config.execution.batchSize) := by
  unfold Prepared.ofTask at h
  split at h
  · cases h
  · next hzero =>
    -- every step went through: registering, the length of the population, building, the length of a batch
    obtain ⟨⟨_, start⟩, hregister, h⟩ := bind_eq_ok_iff.1 h
    obtain ⟨_, -, h⟩ := bind_eq_ok_iff.1 h
    obtain ⟨⟨_, graph, counts⟩, hsettle, h⟩ := bind_eq_ok_iff.1 h
    obtain ⟨_, hbatch, h⟩ := bind_eq_ok_iff.1 h
    obtain rfl := Except.ok.inj h
    have hcells : config.graphOptions.matrix.maxDenseCells < UInt64.size := by
      rw [config.graphOptions_matrix]
      exact hrange.cells
    obtain ⟨rfl, hhoused⟩ := (ensures_register hcells).of_ok (completed_eq_ok_iff.1 hregister)
    have hpeopled := hhoused.ensures_settle.of_ok (completed_eq_ok_iff.1 hsettle)
    refine ⟨hpeopled, ⟨_, rfl, rfl⟩, ?_, le_maxDim_of_checkLength hbatch⟩
    cases override with
    | none => exact hrange.batchSize
    | some n => exact Nat.pos_of_ne_zero fun hn => hzero (congrArg some hn)

/-- **What a plan reports for a population.** -/
theorem Prepared.Ready.report_eq {batchSize : Nat} (h : q.Ready p limit batchSize)
    (hlimit : limit < UInt64.size) {report : Report} (hreport : q.report = .ok report) :
    report = ⟨p.nodes, p.nodes * p.degree, batchSize, false, (p.ranking.take limit).map p.row⟩ := by
  obtain ⟨hpeopled, ⟨options, rfl, hplan⟩, hpos, hle⟩ := h
  unfold Prepared.report at hreport
  obtain ⟨⟨result, u⟩, hexecute, hreport⟩ := bind_eq_ok_iff.1 hreport
  obtain rfl := Except.ok.inj hreport
  rw [hplan] at hexecute
  obtain ⟨hrecords, htimedOut⟩ :=
    (hpeopled.serves hpos hle hlimit).ensures_execute.of_ok (completed_eq_ok_iff.1 hexecute)
  rw [hpeopled.nodeCount, hpeopled.edgeCount, hrecords, htimedOut, hplan]
  rfl

/-- The lines of the report. -/
theorem Prepared.Ready.lines_eq {batchSize : Nat} (h : q.Ready p limit batchSize)
    (hlimit : limit < UInt64.size) {report : Report} (hreport : q.report = .ok report) :
    report.lines none = printed p p.ranking limit batchSize := by
  have hrows : ((p.ranking.take limit).map p.row).map rowText = (p.ranking.take limit).map (pairText p) := by
    rw [List.map_map]
    exact List.map_congr_left fun x hx =>
      rowText_row h.peopled.le_maxDim ((p.ranks_ranking.mem_iff x).1 (List.mem_of_mem_take hx))
  rw [h.report_eq hlimit hreport, Report.lines, hrows, List.length_map, List.length_take]
  rfl

/-- **A population that fits one batch is reported**, once that batch is evaluated. -/
theorem Prepared.Ready.exists_report {batchSize : Nat} (h : q.Ready p limit batchSize) (hsome : 0 < p.nodes)
    (hfew : p.nodes < batchSize) (hlimit : 0 < limit)
    (heval : succeeds (Traversal.evaluateBatch (acquaintances terms) q.graph)
      (p.firstBatch batchSize, q.counts) = true) : ∃ report, q.report = .ok report := by
  obtain ⟨hpeopled, ⟨options, rfl, hplan⟩, -, hle⟩ := h
  obtain ⟨result, u, hexecute⟩ := hpeopled.exists_execute hsome hfew hle hlimit heval
  unfold Prepared.report
  rw [hplan, completed_eq_ok_iff.2 hexecute]
  exact ⟨_, rfl⟩

/-! ## Command lines -/

theorem natural64?_lt {s : String} {n : Nat} (h : natural64? s = some n) : n < UInt64.size := by
  unfold natural64? at h
  extract_lets digits value at h
  split at h
  · cases h
  · split at h
    · next hlt => exact Option.some.inj h ▸ hlt
    · cases h

theorem number?_lt {options : Options} {option : String} {n : Nat}
    (h : number? options option = .ok (some n)) : n < UInt64.size := by
  unfold number? at h
  split at h
  · cases h
  · split at h
    · next hn => exact natural64?_lt (Option.some.inj (Except.ok.inj h) ▸ hn)
    · cases h

/-- A limit is a word. -/
theorem limit_lt_of_ofOptions {options : Options} {task : Traverse} (h : Traverse.ofOptions options = .ok task) :
    task.limit < UInt64.size := by
  unfold Traverse.ofOptions at h
  obtain ⟨_, -, h⟩ := bind_eq_ok_iff.1 h
  obtain ⟨_, -, h⟩ := bind_eq_ok_iff.1 h
  obtain ⟨_, -, h⟩ := bind_eq_ok_iff.1 h
  obtain ⟨_, -, h⟩ := bind_eq_ok_iff.1 h
  obtain ⟨limit?, hlimit, h⟩ := bind_eq_ok_iff.1 h
  obtain rfl := Except.ok.inj h
  cases limit? with
  | none => exact (by decide : 10 < UInt64.size)
  | some n => exact number?_lt hlimit

theorem limit_lt_of_ofWords {environment path : Option String} {words : List String} {task : Traverse}
    (h : Request.ofWords environment words = .ok (.traverse path task)) : task.limit < UInt64.size := by
  unfold Request.ofWords at h
  obtain ⟨⟨outer, rest⟩, -, h⟩ := bind_eq_ok_iff.1 h
  obtain ⟨_, -, h⟩ := bind_eq_ok_iff.1 h
  split at h
  · cases h
  · obtain ⟨⟨inner, rest⟩, -, h⟩ := bind_eq_ok_iff.1 h
    obtain ⟨_, -, h⟩ := bind_eq_ok_iff.1 h
    obtain ⟨task', htask, h⟩ := bind_eq_ok_iff.1 h
    obtain ⟨_, -, h⟩ := bind_eq_ok_iff.1 h
    -- whichever file is named, the task is the one that was read
    have heq : task' = task := by
      split at h
      · cases h; rfl
      · split at h
        · cases h
        · cases h; rfl
    exact heq ▸ limit_lt_of_ofOptions htask
  · split at h <;> cases h

/-- What the program finds when it is called: the environment, the files, and the words. -/
structure Invocation where
  /-- The file that the environment names. -/
  environment : Option String
  contents : String → Option String
  fallback : Option (Option String)
  words : List String

/-- The invocation asks for a traversal of the population, under a configuration without a timeout, and is
answered. -/
structure Invocation.Answered (i : Invocation) (p : Population) (limit : Nat) (override : Option Nat)
    (config : EngineConfig) (lines : List String) : Prop where
  asked : ∃ path, Request.ofWords i.environment i.words = .ok (.traverse path ⟨p, override, limit⟩) ∧
    configFor i.contents i.fallback path = .ok config
  untimed : config.execution.timeout = none
  answered : respond i.environment i.contents i.fallback i.words = .ok lines

theorem inRange_of_configFor {contents : String → Option String} {fallback : Option (Option String)}
    {path : Option String} (h : configFor contents fallback path = .ok config) : config.InRange := by
  unfold configFor at h
  cases hfile : EngineConfig.ofFileOrDefault (path.map contents) fallback with
  | error e => rw [hfile] at h; cases h
  | ok c =>
    rw [hfile] at h
    exact Except.ok.inj h ▸ EngineConfig.inRange_of_ofFileOrDefault hfile

/-- **What an answer says.** -/
theorem Invocation.Answered.lines_eq {i : Invocation} {lines : List String}
    (h : i.Answered p limit override config lines) :
    lines = printed p p.ranking limit (override.getD config.execution.batchSize) := by
  obtain ⟨⟨path, hwords, hconfig⟩, -, hanswered⟩ := h
  rw [respond, hwords] at hanswered
  obtain ⟨_, ⟨⟩, hanswered⟩ := bind_eq_ok_iff.1 hanswered
  rw [answer, hconfig] at hanswered
  obtain ⟨_, ⟨⟩, hanswered⟩ := bind_eq_ok_iff.1 hanswered
  obtain ⟨q, hprepared, hanswered⟩ := bind_eq_ok_iff.1 hanswered
  obtain ⟨report, hreport, hlines⟩ := bind_eq_ok_iff.1 hanswered
  rw [← Except.ok.inj hlines]
  exact (ready_of_ofTask (inRange_of_configFor hconfig) hprepared).lines_eq (limit_lt_of_ofWords hwords) hreport

/-- The task can be prepared, and the first batch evaluated. -/
def evaluates (config : EngineConfig) (task : Traverse) : Bool :=
  match Prepared.ofTask config task with
  | .ok q => succeeds (Traversal.evaluateBatch (acquaintances terms) q.graph)
      (task.population.firstBatch (task.batchSize.getD config.execution.batchSize), q.counts)
  | .error _ => false

/-- **There is an answer** where the population fits one batch and this can be evaluated. -/
theorem Invocation.answered_of_evaluates {i : Invocation} {path : Option String}
    (hwords : Request.ofWords i.environment i.words = .ok (.traverse path ⟨p, override, limit⟩))
    (hconfig : configFor i.contents i.fallback path = .ok config) (huntimed : config.execution.timeout = none)
    (hsome : 0 < p.nodes) (hfew : p.nodes < override.getD config.execution.batchSize) (hlimit : 0 < limit)
    (heval : evaluates config ⟨p, override, limit⟩ = true) :
    i.Answered p limit override config (printed p p.ranking limit (override.getD config.execution.batchSize)) := by
  refine ⟨⟨path, hwords, hconfig⟩, huntimed, ?_⟩
  unfold evaluates at heval
  cases hprepared : Prepared.ofTask config ⟨p, override, limit⟩ with
  | error e => rw [hprepared] at heval; cases heval
  | ok q =>
    rw [hprepared] at heval
    have hready := ready_of_ofTask (inRange_of_configFor hconfig) hprepared
    obtain ⟨report, hreport⟩ := hready.exists_report hsome hfew hlimit heval
    rw [respond, hwords, ← hready.lines_eq (limit_lt_of_ofWords hwords) hreport]
    refine bind_eq_ok_iff.2 ⟨_, rfl, ?_⟩
    rw [answer, hconfig]
    exact bind_eq_ok_iff.2 ⟨_, rfl, bind_eq_ok_iff.2 ⟨q, hprepared, bind_eq_ok_iff.2 ⟨report, hreport, rfl⟩⟩⟩

/-- **Neither the configuration nor the size of the batches leaves a trace in the answer.** Two answers to
the same traversal differ at most in the line that names the size of the batches. The rows are the head of
the distinct pairs that were drawn, by the age of the one known, then by name, then by who knows. -/
theorem answers_agree {i i' : Invocation} {override' : Option Nat} {config' : EngineConfig}
    {lines lines' : List String} (h : i.Answered p limit override config lines)
    (h' : i'.Answered p limit override' config' lines') :
    lines.eraseIdx 2 = lines'.eraseIdx 2 ∧ ∃ ranking, p.Ranks ranking ∧
      lines = printed p ranking limit (override.getD config.execution.batchSize) ∧
      lines' = printed p ranking limit (override'.getD config'.execution.batchSize) := by
  rw [h.lines_eq, h'.lines_eq]
  exact ⟨rfl, p.ranking, p.ranks_ranking, rfl, rfl⟩

/-- Two persons who both know the second one: under the default configuration, and in bitmaps that grow by
one node, with batches of three. -/
theorem answers_agree_bitmap :
    let p : Population := { nodes := 2, degree := 1 }
    let plain : Invocation :=
      { environment := none, contents := fun _ => none, fallback := none,
        words := ["traverse", "--nodes", "2", "--degree", "1"] }
    let tuned : Invocation :=
      { environment := some "engine.toml", fallback := none,
        contents := fun _ => some "[graph]\nnode_block = 1\n[matrix]\nsparsity = \"bitmap\"\n",
        words := ["traverse", "--nodes=2", "--degree=1", "--batch-size=3"] }
    let bitmap : EngineConfig := { matrix := { sparsity := .fixed .bitmap }, nodeBlock := some 1 }
    let lines (batchSize : String) : List String :=
      ["nodes: 2", "edges: 2", batchSize, "rows: 2", "timed out: false", "  0 -> 1  age=30  name=person-1",
        "  1 -> 1  age=30  name=person-1"]
    plain.Answered p 10 none {} (lines "batch size: 16") ∧
      tuned.Answered p 10 (some 3) bitmap (lines "batch size: 3") ∧
      (lines "batch size: 16").eraseIdx 2 = (lines "batch size: 3").eraseIdx 2 ∧
      ∃ ranking, p.Ranks ranking ∧ lines "batch size: 16" = printed p ranking 10 16 ∧
        lines "batch size: 3" = printed p ranking 10 3 := by
  intro p plain tuned bitmap lines
  have hranking : p.ranking = [(0, 1), (1, 1)] :=
    (stableSort_eq_mergeSort _ _).symm.trans (by decide +kernel)
  have hlines : printed p [(0, 1), (1, 1)] 10 16 = lines "batch size: 16" ∧
      printed p [(0, 1), (1, 1)] 10 3 = lines "batch size: 3" := by decide +kernel
  have hplain : plain.Answered p 10 none {} (lines "batch size: 16") := by
    have hwords : Request.ofWords plain.environment plain.words = .ok (.traverse none ⟨p, none, 10⟩) := by cbv
    have hanswered : plain.Answered p 10 none {} (printed p p.ranking 10 16) :=
      Invocation.answered_of_evaluates hwords rfl rfl (by decide) (by decide) (by decide) (by decide +kernel)
    rwa [hranking, hlines.1] at hanswered
  have htuned : tuned.Answered p 10 (some 3) bitmap (lines "batch size: 3") := by
    have hwords : Request.ofWords tuned.environment tuned.words =
        .ok (.traverse (some "engine.toml") ⟨p, some 3, 10⟩) := by cbv
    have hread : (configFor tuned.contents tuned.fallback (some "engine.toml")).toOption = some bitmap := by
      decide +kernel
    have hconfig : configFor tuned.contents tuned.fallback (some "engine.toml") = .ok bitmap := by
      cases hc : configFor tuned.contents tuned.fallback (some "engine.toml") with
      | error e => rw [hc] at hread; cases hread
      | ok c => rw [hc] at hread; exact congrArg _ (Option.some.inj hread)
    have hanswered : tuned.Answered p 10 (some 3) bitmap (printed p p.ranking 10 3) :=
      Invocation.answered_of_evaluates hwords hconfig rfl (by decide) (by decide) (by decide) (by decide +kernel)
    rwa [hranking, hlines.2] at hanswered
  obtain ⟨hsame, ranking, hranks, hfirst, hsecond⟩ := answers_agree hplain htuned
  exact ⟨hplain, htuned, hsame, ranking, hranks, hfirst, hsecond⟩

end Adjacency.CommandLine
