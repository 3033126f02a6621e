import PgRelay.Drain
import PgRelay.Selection.Pages

/-!
# Listing jobs page by page

`list_jobs` orders the jobs that its filters admit by `created_at`, newest first, and returns a page and on
request the total. The order says nothing about jobs of one `created_at`, the time at which their
transactions began, and nothing else breaks the tie; each execution of the query may order such jobs
differently. A client that reads page after page of a table that does not change gets every job exactly
once if no boundary of a page falls between two such jobs.
-/

namespace PgRelay

open RowStore Selection

/-! ## The query -/

/-- The text of a status in its column. -/
def JobStatus.text : JobStatus → String
  | .pending => "pending"
  | .leased => "leased"
  | .succeeded => "succeeded"
  | .deadLetter => "dead_letter"
  | .cancelled => "cancelled"

/-- The text of a kind in its column. -/
def JobKind.text : JobKind → String
  | .http => "http"
  | .handler => "handler"

/-- The filters of `list_jobs`, texts to which the columns are compared. -/
structure JobFilters where
  status : Option String
  queueName : Option String
  kind : Option String
  name : Option String
  dedupeKey : Option String

/-- The condition of `_filtered_select`. -/
def JobFilters.admits (filters : JobFilters) (j : JobRow) : Bool :=
  filters.status.all (fun status => j.status.text = status) && filters.queueName.all (fun q => j.queueName = q) &&
    filters.kind.all (fun kind => j.kind.text = kind) && filters.name.all (fun name => j.name = name) &&
    filters.dedupeKey.all fun key => j.dedupeKey = some key

/-- The jobs that a list selects. -/
def selectedJobs (filters : JobFilters) (jobs : JobTable) : List JobRow :=
  (jobs.rows.map JobEntry.row).filter filters.admits

/-- A result that `list_jobs` may return, if the table does not change between its statements. -/
structure Lists (filters : JobFilters) (limit offset : ℕ) (includeTotal : Bool) (jobs : JobTable)
    (result : JobListResult) : Prop where
  items : ∃ order, Ranks (DescendingBy JobRow.createdAt) (selectedJobs filters jobs) order ∧
    result.items = page limit offset order
  total : result.total = if includeTotal then some (selectedJobs filters jobs).length else none

/-! ## The statements of a list -/

/-- The filters as texts. -/
def ListArgs.filters (args : ListArgs) : JobFilters where
  status := args.status.map JobStatus.text
  queueName := args.queueName
  kind := args.kind.map JobKind.text
  name := args.name
  dedupeKey := args.dedupeKey

/-- Different statuses have different texts. -/
theorem JobStatus.text_injective : Function.Injective JobStatus.text := by
  intro a b h
  cases a <;> cases b <;> first | rfl | exact absurd h (by decide)

/-- Different kinds have different texts. -/
theorem JobKind.text_injective : Function.Injective JobKind.text := by
  intro a b h
  cases a <;> cases b <;> first | rfl | exact absurd h (by decide)

/-- The filters of a listing admit what its select does. -/
theorem admits_filters (args : ListArgs) : args.filters.admits = filteredSelect args := by
  funext j
  simp only [JobFilters.admits, ListArgs.filters, filteredSelect, Option.all_map,
    JobStatus.text_injective.eq_iff, JobKind.text_injective.eq_iff]

/-- The count of the second statement is the number of jobs that the first one ranks. -/
theorem totalJobs_eq (args : ListArgs) (jobs : JobTable) :
    totalJobs args jobs = (selectedJobs args.filters jobs).length := by
  rw [totalJobs, Table.count, selectedJobs, admits_filters, List.filter_map, List.length_map]
  rfl

/-- Where `list_jobs` stands on a table that does not change. -/
def ListPc.Sound (args : ListArgs) (jobs : JobTable) : ListPc → Prop
  | .begin => True
  | .selected items => items = listedJobs args jobs ∧ args.includeTotal = true
  | .finished result => Lists args.filters args.limit args.offset args.includeTotal jobs result

/-- The jobs of a listing are a page of some order by descending creation time. -/
theorem lists_listedJobs (args : ListArgs) (jobs : JobTable) : ∃ order,
    Ranks (DescendingBy JobRow.createdAt) (selectedJobs args.filters jobs) order ∧
      listedJobs args jobs = page args.limit args.offset order := by
  refine ⟨_, ranks_insertionSort _, ?_⟩
  rw [listedJobs, selectedJobs, admits_filters, page]

/-- Every statement of a listing keeps it sound. -/
theorem ListPc.Sound.step {args : ListArgs} {jobs : JobTable} {pc pc' : ListPc} (h : pc.Sound args jobs)
    (hs : listStatement args jobs pc = some pc') : pc'.Sound args jobs := by
  cases pc with
  | begin =>
    obtain rfl := Option.some.inj hs
    split_ifs with htotal
    · exact ⟨rfl, htotal⟩
    · exact ⟨lists_listedJobs args jobs, by simp [htotal]⟩
  | selected items =>
    obtain rfl := Option.some.inj hs
    obtain ⟨rfl, htotal⟩ := h
    exact ⟨lists_listedJobs args jobs, by rw [htotal, if_pos rfl, totalJobs_eq]⟩
  | finished => cases hs

/-- A listing is sound at every point. -/
theorem ListPc.sound {args : ListArgs} {jobs : JobTable} {pc : ListPc}
    (h : Relation.ReflTransGen (fun pc pc' => listStatement args jobs pc = some pc') .begin pc) :
    pc.Sound args jobs := by
  induction h with
  | refl => trivial
  | tail _ hs ih => exact ih.step hs

/-- What the statements of `list_jobs` return is a result that it may return. -/
theorem lists_of_listStatement {args : ListArgs} {jobs : JobTable} {result : JobListResult}
    (h : Relation.ReflTransGen (fun pc pc' => listStatement args jobs pc = some pc') .begin (.finished result)) :
    Lists args.filters args.limit args.offset args.includeTotal jobs result := ListPc.sound h

/-! ## All pages -/

variable {filters : JobFilters} {limit : ℕ} {jobs : JobTable}

/-- Every job of the table that the filters admit is in the list once, and nothing else is. -/
structure ListedOnce (filters : JobFilters) (jobs : JobTable) (listed : List JobRow) : Prop where
  nodup : (listed.map JobRow.id).Nodup
  mem_iff : ∀ j, j ∈ listed ↔ (∃ entry, jobs.get j.id = some entry ∧ entry.row = j) ∧ filters.admits j = true

/-- The jobs of the first `m` pages. -/
def pagesBefore (results : ℕ → JobListResult) (m : ℕ) : List JobRow :=
  (List.range m).flatMap fun k => (results k).items

/-- Whatever the executions at the offsets 0, `limit`, `2 * limit` and so on return, there is a first empty
page, the pages before it list every job once, and every total that is returned is their number. -/
def Paginates (filters : JobFilters) (limit : ℕ) (jobs : JobTable) : Prop :=
  ∀ (includeTotal : ℕ → Bool) (results : ℕ → JobListResult),
    (∀ k, Lists filters limit (k * limit) (includeTotal k) jobs (results k)) →
      ∃ m, FirstEmpty (fun k => (results k).items) m ∧ ListedOnce filters jobs (pagesBefore results m) ∧
        ∀ k, includeTotal k = true → (results k).total = some (pagesBefore results m).length

/-- The selected jobs have different ids. -/
theorem selectedJobs_nodup (filters : JobFilters) (jobs : JobTable) :
    ((selectedJobs filters jobs).map JobRow.id).Nodup := by
  have hids : ((jobs.rows.map JobEntry.row).map JobRow.id).Nodup := by
    rw [List.map_map]
    exact jobs.nodup
  exact hids.sublist (List.filter_sublist.map _)

/-- The selected jobs are the rows of the table that the filters admit. -/
theorem mem_selectedJobs {j : JobRow} : j ∈ selectedJobs filters jobs ↔
    (∃ entry, jobs.get j.id = some entry ∧ entry.row = j) ∧ filters.admits j = true := by
  rw [selectedJobs, List.mem_filter, List.mem_map]
  refine and_congr_left fun _ => exists_congr fun entry => and_congr_left ?_
  rintro rfl
  exact ⟨fun hmem => Table.get_of_mem hmem, fun hget => ((Table.get_eq_some_iff _ _ _).mp hget).1⟩

/-- To list every job once is to list the selected jobs in some order. -/
theorem listedOnce_iff_perm {listed : List JobRow} :
    ListedOnce filters jobs listed ↔ listed.Perm (selectedJobs filters jobs) := by
  constructor
  · intro h
    refine (List.perm_ext_iff_of_nodup h.nodup.of_map (selectedJobs_nodup filters jobs).of_map).mpr fun j => ?_
    rw [h.mem_iff, mem_selectedJobs]
  · intro h
    refine ⟨(h.map JobRow.id).nodup_iff.mpr (selectedJobs_nodup filters jobs), fun j => ?_⟩
    rw [h.mem_iff, mem_selectedJobs]

/-- Results that `list_jobs` may return have pages that the query may return. -/
theorem pages_of_lists {includeTotal : ℕ → Bool} {results : ℕ → JobListResult}
    (h : ∀ k, Lists filters limit (k * limit) (includeTotal k) jobs (results k)) :
    Pages JobRow.createdAt (selectedJobs filters jobs) limit fun k => (results k).items := fun k => (h k).items

/-- All pages together list every job once exactly if the pages of the query have every row once. -/
theorem paginates_iff_listsOnce :
    Paginates filters limit jobs ↔ ListsOnce JobRow.createdAt (selectedJobs filters jobs) limit := by
  constructor
  · intro h pages hpages
    obtain ⟨m, hm, honce, -⟩ := h (fun _ => false) (fun k => ⟨pages k, none⟩) fun k => ⟨hpages k, rfl⟩
    exact ⟨m, hm, listedOnce_iff_perm.mp honce⟩
  · intro h includeTotal results hlists
    obtain ⟨m, hm, hperm⟩ := h _ (pages_of_lists hlists)
    refine ⟨m, hm, listedOnce_iff_perm.mpr hperm, fun k hk => ?_⟩
    rw [(hlists k).total, hk, if_pos rfl, pagesBefore, hperm.length_eq]

/-- For every table, all filters and every limit: a client that reads all pages gets every job exactly once
and as many as the total says, whatever the executions, exactly if no boundary of a page falls between jobs
of one `created_at`. -/
theorem paginates_iff (hlimit : 1 ≤ limit) (filters : JobFilters) (jobs : JobTable) :
    Paginates filters limit jobs ↔ ∀ k, ¬ SplitsTies JobRow.createdAt (selectedJobs filters jobs) (k * limit) :=
  paginates_iff_listsOnce.trans (listsOnce_iff hlimit (selectedJobs_nodup filters jobs).of_map)

/-- No filters. -/
def JobFilters.none : JobFilters := ⟨Option.none, Option.none, Option.none, Option.none, Option.none⟩

/-- Two jobs that are enqueued in transactions that begin at the same time. -/
def twoJobsRun : List Action :=
  transaction 0 (.enqueue (handlerJob "mail" 2)) 5 ++ transaction 1 (.enqueue (handlerJob "mail" 2)) 5

/-- The first page of length 1 ends between them. -/
theorem splitsTies_twoJobsRun :
    SplitsTies JobRow.createdAt (selectedJobs .none (stateAfter 0 twoJobsRun).jobs) (1 * 1) :=
  ⟨0, by decide +kernel⟩

/-- Two jobs of one transaction have one creation time, and a page has one of them. -/
theorem paginates_iff_twoJobsRun : ¬ Paginates .none 1 (stateAfter 0 twoJobsRun).jobs := by
  rw [paginates_iff (by decide)]
  exact fun h => h 1 splitsTies_twoJobsRun

/-- Their order may change between the pages. -/
theorem not_paginates_twoJobsRun : ¬ ∀ s filters limit, Reachable s → 1 ≤ limit → Paginates filters limit s.jobs := by
  intro hall
  have hpaginates := hall (stateAfter 0 twoJobsRun) .none 1 (reachable_stateAfter 0 twoJobsRun) (by decide)
  exact not_listsOnce_of_splitsTies (selectedJobs_nodup _ _).of_map splitsTies_twoJobsRun
    (paginates_iff_listsOnce.mp hpaginates)

end PgRelay
