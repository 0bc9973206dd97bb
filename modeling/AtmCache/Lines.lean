import Mathlib.Data.List.Basic
import Mathlib.Data.List.TakeWhile
import Mathlib.Tactic.Common

/-!
# Lines of a stream that arrives in chunks

A reader keeps the text of the unfinished line. Within a chunk a terminator ends the
line, and the terminators that directly follow it are skipped (`frame`). At the start of a
chunk nothing is skipped, so the lines depend on where the stream was cut: two
cuttings of one stream give the same lines exactly when they cut each run of terminators
equally often (`frames_eq_iff`).
-/
namespace Lines
universe u
variable {α : Type u} (ends : α → Bool)

/-- The lines of one chunk behind the text `held`, and the text of the unfinished line. -/
def frame : List α → Bool → List α → List (List α) × List α
  | held, _, [] => ([],held)
  | held, skip, x :: rest =>
    if ends x then
      if skip then frame held true rest else (held :: (frame [] true rest).1,(frame [] true rest).2)
    else frame (held ++ [x]) false rest

/-- The lines of all chunks. -/
def frames : List α → List (List α) → List (List α)
  | _, [] => []
  | held, c :: cs => (frame ends held false c).1 ++ frames (frame ends held false c).2 cs

/-- A text without terminators. -/
def Open (t : List α) : Prop := ∀ x ∈ t, ends x = false

/-- A run of terminators. -/
def Run (r : List α) : Prop := ∀ x ∈ r, ends x = true

variable {ends}

theorem open_append {s t : List α} : Open ends (s ++ t) ↔ Open ends s ∧ Open ends t :=
  List.forall_mem_append

/-! ### The line in front -/

theorem frame_open {t : List α} (clean : Open ends t) :
    ∀ held rest, frame ends held false (t ++ rest) = frame ends (held ++ t) false rest := by
  induction t with
  | nil => intro held rest; simp
  | cons x t ih =>
    obtain ⟨here,later⟩ := List.forall_mem_cons.mp clean
    intro held rest
    rw [List.cons_append,frame,if_neg (by simp [here]),ih later]
    simp

theorem frame_run {r : List α} (run : Run ends r) (rest : List α) :
    frame ends [] true (r ++ rest) = frame ends [] true rest := by
  induction r with
  | nil => rfl
  | cons x r ih =>
    obtain ⟨here,later⟩ := List.forall_mem_cons.mp run
    rw [List.cons_append,frame,if_pos here,if_pos rfl,ih later]

theorem frame_skip {rest : List α} (next : ∀ x ∈ rest.head?, ends x = false) :
    frame ends [] true rest = frame ends [] false rest := by
  cases rest with
  | nil => rfl
  | cons x rest =>
    have here : ¬ ends x = true := by simp [next x rfl]
    rw [frame,frame,if_neg here,if_neg here]

/-- A text, the terminators behind it and the rest. -/
theorem frame_line {t r rest : List α} (clean : Open ends t) (filled : r ≠ []) (run : Run ends r)
    (next : ∀ x ∈ rest.head?, ends x = false) :
    frame ends [] false (t ++ r ++ rest) = (t :: (frame ends [] false rest).1,(frame ends [] false rest).2) := by
  cases r with
  | nil => exact absurd rfl filled
  | cons x r =>
    obtain ⟨here,later⟩ := List.forall_mem_cons.mp run
    rw [List.append_assoc,frame_open clean,List.cons_append,frame,if_pos here,if_neg (by simp),frame_run later,
      frame_skip next,List.nil_append]

theorem frame_first {t : List α} {x : α} (clean : Open ends t) (here : ends x = true) (rest : List α) :
    (frame ends [] false (t ++ x :: rest)).1.head? = some t := by
  rw [frame_open clean,frame,if_pos here,if_neg (by simp)]
  rfl

/-- The lines behind a terminator are lines of the whole. -/
theorem frame_later {x : α} (here : ends x = true) (rest c : List α) : ∀ held skip,
    (frame ends [] true rest).1 ⊆ (frame ends (if skip then [] else held) skip (c ++ x :: rest)).1 := by
  induction c with
  | nil =>
    intro held skip
    rw [List.nil_append,frame,if_pos here]
    cases skip with
    | true => exact fun t member => member
    | false => exact List.subset_cons_self _ _
  | cons y c ih =>
    intro held skip
    rw [List.cons_append,frame]
    by_cases there : ends y = true
    · rw [if_pos there]
      cases skip with
      | true => exact ih [] true
      | false => exact List.Subset.trans (ih [] true) (List.subset_cons_self _ _)
    · rw [if_neg there]
      exact ih _ false

/-- Behind a terminator the first line of a chunk is empty or a line of the whole. -/
theorem frame_resume {pre rest t : List α} {x : α} (here : ends x = true) (first : (frame ends [] false rest).1.head? = some t) :
    t = [] ∨ t ∈ (frame ends [] false (pre ++ x :: rest)).1 := by
  cases rest with
  | nil => cases first
  | cons y rest =>
    by_cases there : ends y = true
    · rw [frame,if_pos there,if_neg (by simp)] at first
      exact .inl (Option.some.inj first).symm
    · rw [← frame_skip (by simpa using there)] at first
      exact .inr (frame_later here (y :: rest) pre [] false (List.mem_of_mem_head? first))

theorem frame_clean {t : List α} (clean : Open ends t) : frame ends [] false t = ([],t) := by
  have whole := frame_open clean [] []
  simpa [frame] using whole

/-- What is left of a chunk has no terminator. -/
theorem frame_last (c : List α) : ∀ held skip, Open ends held → Open ends (frame ends held skip c).2 := by
  induction c with
  | nil => exact fun held skip clean => clean
  | cons x c ih =>
    intro held skip clean
    rw [frame]
    by_cases here : ends x = true
    · rw [if_pos here]
      by_cases skipped : skip = true
      · rw [if_pos skipped]
        exact ih held true clean
      · rw [if_neg skipped]
        exact ih [] true (fun _ member => (by cases member))
    · rw [if_neg here]
      refine ih (held ++ [x]) false (open_append.mpr ⟨clean,?_⟩)
      simpa [Open] using here

/-- What is left of a chunk is its end. -/
theorem frame_suffix (c : List α) :
    ∀ held skip, (skip = true → held = []) → (frame ends held skip c).2 <:+ held ++ c := by
  induction c with
  | nil => exact fun held skip _ => by simp [frame]
  | cons x c ih =>
    intro held skip empty
    rw [frame]
    by_cases here : ends x = true
    · rw [if_pos here]
      by_cases skipped : skip = true
      · rw [if_pos skipped]
        cases empty skipped
        exact (ih [] true (fun _ => rfl)).trans ⟨[x],rfl⟩
      · rw [if_neg skipped]
        exact (ih [] true (fun _ => rfl)).trans ⟨held ++ [x],by simp⟩
    · rw [if_neg here]
      have later := ih (held ++ [x]) false (fun skipped => by cases skipped)
      rwa [List.append_assoc] at later

variable (ends) in
/-- A text with a terminator has a first line, the whole run behind it and a rest. -/
theorem split_line (b : List α) : Open ends b ∨ ∃ t r rest, b = t ++ r ++ rest ∧ Open ends t ∧ r ≠ [] ∧ Run ends r ∧
    ∀ x ∈ rest.head?, ends x = false := by
  by_cases clean : Open ends b
  · exact .inl clean
  · right
    have cut : b = b.takeWhile (fun x => !ends x) ++ b.dropWhile (fun x => !ends x) := List.takeWhile_append_dropWhile.symm
    have head : ∀ x ∈ (b.dropWhile (fun x => !ends x)).head?, ends x = true := by
      intro x member
      have := List.head?_dropWhile_not (fun x => !ends x) b
      rw [Option.mem_def] at member
      rw [member] at this
      simpa using this
    have cut' : b.dropWhile (fun x => !ends x) = (b.dropWhile (fun x => !ends x)).takeWhile ends ++
      (b.dropWhile (fun x => !ends x)).dropWhile ends := List.takeWhile_append_dropWhile.symm
    refine ⟨b.takeWhile (fun x => !ends x),(b.dropWhile (fun x => !ends x)).takeWhile ends,
      (b.dropWhile (fun x => !ends x)).dropWhile ends,by rw [List.append_assoc,← cut',← cut],?_,?_,?_,?_⟩
    · intro x member
      simpa using List.mem_takeWhile_imp member
    · intro nil
      cases left : b.dropWhile (fun x => !ends x) with
      | nil =>
        rw [left,List.append_nil] at cut
        refine clean (fun x member => ?_)
        rw [cut] at member
        simpa using List.mem_takeWhile_imp member
      | cons x l =>
        have here := head x (by rw [left]; rfl)
        rw [left,List.takeWhile_cons,if_pos here] at nil
        cases nil
    · exact fun x member => List.mem_takeWhile_imp member
    · intro x member
      have := List.head?_dropWhile_not ends (b.dropWhile (fun x => !ends x))
      rw [Option.mem_def] at member
      rw [member] at this
      simpa using this

/-! ### Cuts inside runs of terminators -/

/-- The symbols of all chunks, each with a mark that tells whether the stream was cut before it. -/
def marks (cs : List (List α)) : List (α × Bool) :=
  cs.flatMap (fun c => match c with
    | [] => []
    | x :: rest => (x,true) :: rest.map (fun y => (y,false)))

variable (ends) in
/-- For each maximal run of terminators the number of cuts inside it, that is, before a
    terminator that follows another one. -/
def run_cuts : Option Nat → List (α × Bool) → List Nat
  | none, [] => []
  | some k, [] => [k]
  | none, (x,_) :: rest => if ends x then run_cuts (some 0) rest else run_cuts none rest
  | some k, (x,cut) :: rest => if ends x then run_cuts (some (if cut then k+1 else k)) rest else k :: run_cuts none rest

variable (ends) in
/-- How often each run of terminators is cut. -/
def inner_cuts (cs : List (List α)) : List Nat := run_cuts ends none (marks cs)

variable (ends) in
/-- `frames` over marked symbols. -/
def marked_lines : List α → Bool → List (α × Bool) → List (List α)
  | _, _, [] => []
  | held, skip, (x,cut) :: rest =>
    if ends x then
      if skip = true ∧ cut = false then marked_lines held true rest else held :: marked_lines [] true rest
    else marked_lines (held ++ [x]) false rest

theorem marks_symbols (cs : List (List α)) : (marks cs).map Prod.fst = cs.flatten := by
  induction cs with
  | nil => rfl
  | cons c cs ih =>
    rw [marks,List.flatMap_cons,List.map_append,List.flatten_cons]
    congr 1
    cases c with
    | nil => rfl
    | cons x rest => simp [Function.comp_def]

/-- At a cut it does not matter whether terminators were skipped before. -/
theorem marked_lines_cut {cs : List (List α)} (full : ∀ c ∈ cs, c ≠ []) (held : List α) (skip : Bool) :
    marked_lines ends held skip (marks cs) = marked_lines ends held false (marks cs) := by
  cases cs with
  | nil => rfl
  | cons c cs =>
    cases c with
    | nil => exact absurd rfl (full [] List.mem_cons_self)
    | cons x rest => simp [marks,marked_lines]

theorem marked_lines_chunk {m : List (α × Bool)} (start : ∀ held skip, marked_lines ends held skip m = marked_lines ends held false m)
    (c : List α) : ∀ held skip, marked_lines ends held skip (c.map (fun y => (y,false)) ++ m) =
      (frame ends held skip c).1 ++ marked_lines ends (frame ends held skip c).2 false m := by
  induction c with
  | nil => exact fun held skip => start held skip
  | cons x c ih =>
    intro held skip
    rw [List.map_cons,List.cons_append,marked_lines,frame]
    by_cases here : ends x = true
    · rw [if_pos here,if_pos here]
      by_cases skipped : skip = true
      · rw [if_pos ⟨skipped,rfl⟩,if_pos skipped,ih]
      · rw [if_neg (fun both => skipped both.1),if_neg skipped,ih,List.cons_append]
    · rw [if_neg here,if_neg here,ih]

theorem frames_marked {cs : List (List α)} (full : ∀ c ∈ cs, c ≠ []) :
    ∀ held, frames ends held cs = marked_lines ends held false (marks cs) := by
  induction cs with
  | nil => exact fun _ => rfl
  | cons c cs ih =>
    have later : ∀ c ∈ cs, c ≠ [] := fun c member => full c (List.mem_cons_of_mem _ member)
    intro held
    have start : ∀ held skip, marked_lines ends held skip (marks cs) = marked_lines ends held false (marks cs) :=
      marked_lines_cut later
    have chunk := marked_lines_chunk start c held false
    have first : marked_lines ends held false (marks (c :: cs)) =
        marked_lines ends held false (c.map (fun y => (y,false)) ++ marks cs) := by
      cases c with
      | nil => rfl
      | cons x rest => simp [marks,marked_lines]
    rw [frames,ih later,first,chunk]

/-! ### Two cuttings of one stream -/

/-- Empty lines in front of lines that do not start with an empty one can be counted. -/
theorem leading_eq_iff {L M : List (List α)} (first : L.head? ≠ some []) (second : M.head? ≠ some []) (j k : Nat) :
    List.replicate j [] ++ L = List.replicate k [] ++ M ↔ j = k ∧ L = M := by
  induction j generalizing k with
  | zero =>
    cases k with
    | zero => simp
    | succ k =>
      refine ⟨fun same => absurd ?_ first,fun both => by omega⟩
      rw [List.replicate_zero,List.nil_append] at same
      rw [same]
      rfl
  | succ j ih =>
    cases k with
    | zero =>
      refine ⟨fun same => absurd ?_ second,fun both => by omega⟩
      rw [List.replicate_zero,List.nil_append] at same
      rw [← same]
      rfl
    | succ k => simp [List.replicate_succ,ih]

theorem marked_lines_head (m : List (α × Bool)) :
    ∀ held, held ≠ [] → (marked_lines ends held false m).head? ≠ some [] := by
  induction m with
  | nil => exact fun held _ none => by cases none
  | cons first m ih =>
    obtain ⟨x,cut⟩ := first
    intro held filled
    rw [marked_lines]
    by_cases here : ends x = true
    · rw [if_pos here,if_neg (fun both => by cases both.1),List.head?_cons]
      exact fun same => filled (Option.some.inj same)
    · rw [if_neg here]
      exact ih _ (by simp)

/-- Outside a run the lines agree exactly when the counts do; inside one, when they do with
    the empty lines that the cuts of this run have made so far. -/
theorem marked_lines_eq_iff (symbols : List α) :
    ∀ m m' : List (α × Bool), m.map Prod.fst = symbols → m'.map Prod.fst = symbols →
      (∀ held, marked_lines ends held false m = marked_lines ends held false m' ↔ run_cuts ends none m = run_cuts ends none m') ∧
      ∀ j k, List.replicate j [] ++ marked_lines ends [] true m = List.replicate k [] ++ marked_lines ends [] true m' ↔
        run_cuts ends (some j) m = run_cuts ends (some k) m' := by
  induction symbols with
  | nil =>
    intro m m' is is'
    rw [List.map_eq_nil_iff.mp is,List.map_eq_nil_iff.mp is']
    refine ⟨fun held => by simp [run_cuts],fun j k => ?_⟩
    have counted := leading_eq_iff (L := ([] : List (List α))) (M := []) (by simp) (by simp) j k
    simp only [List.append_nil,and_true] at counted
    simp only [marked_lines,run_cuts,List.append_nil,List.cons.injEq,and_true]
    exact counted
  | cons x symbols ih =>
    intro m m' is is'
    obtain ⟨⟨y,cut⟩,rest,rfl,rfl,isRest⟩ := List.map_eq_cons_iff.mp is
    obtain ⟨⟨y',cut'⟩,rest',rfl,same,isRest'⟩ := List.map_eq_cons_iff.mp is'
    obtain ⟨outside,inside⟩ := ih rest rest' isRest isRest'
    dsimp only at same
    subst same
    by_cases here : ends y' = true
    · refine ⟨fun held => ?_,fun j k => ?_⟩
      · have more := inside 0 0
        simpa [marked_lines,run_cuts,here] using more
      · -- A cut inside the run makes one more empty line.
        have more : ∀ (i : Nat) (cut : Bool) (m : List (α × Bool)),
            List.replicate i [] ++ marked_lines ends [] true ((y',cut) :: m) =
              List.replicate (if cut then i+1 else i) [] ++ marked_lines ends [] true m := by
          intro i cut m
          cases cut with
          | false => simp [marked_lines,here]
          | true => simp [marked_lines,here,List.replicate_succ']
        rw [more,more,inside]
        simp [run_cuts,here]
    · refine ⟨fun held => ?_,fun j k => ?_⟩
      · have later := outside (held ++ [y'])
        simpa [marked_lines,run_cuts,here] using later
      · have lines : ∀ (cut : Bool) (m : List (α × Bool)), marked_lines ends [] true ((y',cut) :: m) = marked_lines ends [y'] false m := by
          intro cut m
          simp [marked_lines,here]
        rw [lines,lines,leading_eq_iff (marked_lines_head _ _ (by simp)) (marked_lines_head _ _ (by simp)),outside]
        simp [run_cuts,here]

/-- Two cuttings of one stream give the same lines exactly when they cut every run of
    terminators equally often. -/
theorem frames_eq_iff {cs ds : List (List α)} (full : ∀ c ∈ cs, c ≠ []) (full' : ∀ d ∈ ds, d ≠ [])
    (same : cs.flatten = ds.flatten) : frames ends [] cs = frames ends [] ds ↔ inner_cuts ends cs = inner_cuts ends ds := by
  rw [frames_marked full,frames_marked full']
  exact (marked_lines_eq_iff cs.flatten _ _ (marks_symbols cs) (by rw [marks_symbols,same])).1 []

end Lines
