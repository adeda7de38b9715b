import Mathlib.Data.List.Basic

/-!
# Slash-separated paths

`Clean` and `Join` of Go's `path/filepath` on bytes, for systems that separate
with a slash, and the place in the directory tree that a path names.  A place is
the list of the names that lead to it from the root; the tree has no links.
-/

set_option autoImplicit false

namespace FilePath

abbrev Name := List UInt8
abbrev Location := List Name

def slash : UInt8 := 47
def dot : Name := [46]
def dotDot : Name := [46, 46]

/-- What stands between the slashes. -/
def elements (path : List UInt8) : List Name := path.splitOn slash

def Rooted (path : List UInt8) : Prop := path.head? = some slash

instance rootedDecidable (path : List UInt8) : Decidable (Rooted path) :=
  inferInstanceAs (Decidable (path.head? = some slash))

/-- A name of one element that is not special. -/
structure Plain (name : Name) : Prop where
  nonempty : name ≠ []
  not_dot : name ≠ dot
  not_dotDot : name ≠ dotDot
  no_slash : slash ∉ name

/-- One element is taken into the cleaned path, whose last element is first. -/
def cleanStep (rooted : Bool) (stack : List Name) (e : Name) : List Name :=
  if e = [] ∨ e = dot then stack
  else if e = dotDot then
    match stack with
    | [] => if rooted then [] else [dotDot]
    | top :: rest => if top = dotDot then dotDot :: top :: rest else rest
  else e :: stack

def cleanElements (rooted : Bool) (es : List Name) : List Name :=
  (es.foldl (cleanStep rooted) []).reverse

def clean (path : List UInt8) : List UInt8 :=
  let cleaned := [slash].intercalate (cleanElements (decide (Rooted path)) (elements path))
  if Rooted path then slash :: cleaned
  else if cleaned = [] then dot else cleaned

def join (parts : List (List UInt8)) : List UInt8 :=
  match parts.dropWhile fun part => part.isEmpty with
  | [] => []
  | first :: rest => clean ([slash].intercalate (first :: rest))

/-- One element is followed from a place, whose last name is first. -/
def walkStep (stack : List Name) (e : Name) : List Name :=
  if e = [] ∨ e = dot then stack else if e = dotDot then stack.tail else e :: stack

/-- The place that the elements lead to. -/
def walk (start : Location) (es : List Name) : Location :=
  (es.foldl walkStep start.reverse).reverse

/-- The place that a path names, in a process that works in `cwd`. -/
def locate (cwd : Location) (path : List UInt8) : Location :=
  walk (if Rooted path then [] else cwd) (elements path)

/-! ## Walking -/

@[simp] theorem walk_nil (start : Location) : walk start [] = start := List.reverse_reverse start

theorem walk_append (start : Location) (es more : List Name) :
    walk start (es ++ more) = walk (walk start es) more := by
  simp [walk, List.foldl_append]

variable {e : Name} {path : List UInt8} {es : List Name}

theorem walk_skip (start : Location) (skipped : e = [] ∨ e = dot) :
    walk start [e] = start := by
  simp [walk, walkStep, skipped]

theorem walk_plain (start : Location) (plain : Plain e) :
    walk start [e] = start ++ [e] := by
  simp [walk, walkStep, plain.nonempty, plain.not_dot, plain.not_dotDot]

theorem walk_dotDot (start : Location) : walk start [dotDot] = start.dropLast := by
  have special : ¬ (dotDot = [] ∨ dotDot = dot) := by decide
  simp [walk, walkStep, special]

/-! ## Elements -/

theorem elements_of_no_slash (plain : slash ∉ path) :
    elements path = [path] :=
  List.splitOn_eq_singleton plain

theorem elements_append (path more : List UInt8) :
    elements (path ++ slash :: more) = elements path ++ elements more :=
  List.splitOnP_append_cons path more (by simp)

theorem elements_no_slash : ∀ (path : List UInt8), ∀ e ∈ elements path, slash ∉ e
  | [], e, member => by
      rw [elements, List.splitOn_nil, List.mem_singleton] at member
      rw [member]
      exact List.not_mem_nil
  | c :: rest, e, member => by
      have later := elements_no_slash rest
      unfold elements List.splitOn at member later
      rw [List.splitOnP_cons_eq_if_modifyHead] at member
      split at member
      · rcases List.mem_cons.mp member with rfl | other
        · exact List.not_mem_nil
        · exact later e other
      · rename_i different
        cases pieces : List.splitOnP (fun x => x == slash) rest with
        | nil =>
          rw [pieces] at member
          cases member
        | cons first others =>
          rw [pieces] at member later
          rcases List.mem_cons.mp member with rfl | other
          · intro inside
            rcases List.mem_cons.mp inside with same | inside
            · exact different (by simp [same])
            · exact later first List.mem_cons_self inside
          · exact later e (List.mem_cons_of_mem _ other)

theorem walk_elements_append (start : Location) (path more : List UInt8) :
    walk start (elements (path ++ slash :: more)) =
      walk (walk start (elements path)) (elements more) := by
  rw [elements_append, walk_append]

/-! ## Cleaning -/

/-- An element that cleaning can leave. -/
structure Kept (e : Name) : Prop where
  nonempty : e ≠ []
  not_dot : e ≠ dot
  no_slash : slash ∉ e

theorem Kept.plain (kept : Kept e) (different : e ≠ dotDot) : Plain e :=
  ⟨kept.nonempty, kept.not_dot, different, kept.no_slash⟩

theorem cleanStep_walk {rooted : Bool} {start : Location} (root : rooted = true → start = [])
    {stack : List Name} (kept : ∀ e ∈ stack, Kept e) (no_slash : slash ∉ e) :
    (∀ e' ∈ cleanStep rooted stack e, Kept e') ∧
      walk start (cleanStep rooted stack e).reverse = walk (walk start stack.reverse) [e] := by
  unfold cleanStep
  by_cases skipped : e = [] ∨ e = dot
  · rw [if_pos skipped, walk_skip _ skipped]
    exact ⟨kept, rfl⟩
  · rw [if_neg skipped]
    rw [not_or] at skipped
    by_cases up : e = dotDot
    · rw [if_pos up, up, walk_dotDot]
      have special : Kept dotDot := ⟨by decide, by decide, by decide⟩
      cases stack with
      | nil =>
        cases rooted with
        | true =>
          rw [root rfl]
          exact ⟨fun _ member => (by cases member), rfl⟩
        | false =>
          refine ⟨fun e' member => ?_, ?_⟩
          · rw [List.mem_singleton.mp member]
            exact special
          · change walk start [dotDot] = (walk start []).dropLast
            rw [walk_nil, walk_dotDot]
      | cons top rest =>
        by_cases double : top = dotDot
        · simp only [if_pos double]
          refine ⟨?_, ?_⟩
          · intro e' member
            rcases List.mem_cons.mp member with rfl | old
            · exact special
            · exact kept e' old
          · rw [List.reverse_cons, walk_append, walk_dotDot]
        · simp only [if_neg double]
          refine ⟨fun e' member => kept e' (List.mem_cons_of_mem _ member), ?_⟩
          have plain := (kept top List.mem_cons_self).plain double
          rw [List.reverse_cons, walk_append, walk_plain _ plain, List.dropLast_concat]
    · rw [if_neg up]
      refine ⟨?_, ?_⟩
      · intro e' member
        rcases List.mem_cons.mp member with rfl | old
        · exact ⟨skipped.1, skipped.2, no_slash⟩
        · exact kept e' old
      · rw [List.reverse_cons, walk_append]

theorem cleanElements_walk (rooted : Bool) {start : Location}
    (root : rooted = true → start = []) (es : List Name) (no_slash : ∀ e ∈ es, slash ∉ e) :
    (∀ e ∈ cleanElements rooted es, Kept e) ∧
      walk start (cleanElements rooted es) = walk start es := by
  have folded : ∀ (es : List Name) (stack : List Name), (∀ e ∈ es, slash ∉ e) →
      (∀ e ∈ stack, Kept e) →
      (∀ e ∈ es.foldl (cleanStep rooted) stack, Kept e) ∧
        walk start (es.foldl (cleanStep rooted) stack).reverse =
          walk (walk start stack.reverse) es := by
    intro es
    induction es with
    | nil => intro stack _ kept; exact ⟨kept, (walk_nil _).symm⟩
    | cons e rest ih =>
      intro stack no_slash kept
      obtain ⟨kept', here⟩ := cleanStep_walk root kept (no_slash e List.mem_cons_self)
      obtain ⟨kept'', later⟩ := ih (cleanStep rooted stack e)
        (fun e' member => no_slash e' (List.mem_cons_of_mem _ member)) kept'
      refine ⟨kept'', ?_⟩
      rw [List.foldl_cons, later, here, ← walk_append, List.singleton_append]
  obtain ⟨kept, same⟩ := folded es [] no_slash fun _ member => (by cases member)
  refine ⟨fun e member => kept e (List.mem_reverse.mp member), ?_⟩
  rw [List.reverse_nil, walk_nil] at same
  exact same

theorem walk_intercalate (kept : ∀ e ∈ es, Kept e) (start : Location) :
    walk start (elements ([slash].intercalate es)) = walk start es := by
  cases es with
  | nil =>
    rw [show [slash].intercalate ([] : List Name) = [] from rfl, elements, List.splitOn_nil,
      walk_skip start (.inl rfl), walk_nil]
  | cons first rest =>
    rw [elements, List.splitOn_intercalate slash (fun e member => (kept e member).no_slash)
      (List.cons_ne_nil _ _)]

theorem intercalate_head (kept : ∀ e ∈ es, Kept e) (nonempty : es ≠ []) :
    [slash].intercalate es ≠ [] ∧ ¬ Rooted ([slash].intercalate es) := by
  cases es with
  | nil => exact absurd rfl nonempty
  | cons first rest =>
    have here := kept first List.mem_cons_self
    obtain ⟨c, others, rfl⟩ := List.exists_cons_of_ne_nil here.nonempty
    have starts : ∃ more, [slash].intercalate ((c :: others) :: rest) = c :: more := by
      cases rest with
      | nil => exact ⟨others, by simp [List.intercalate]⟩
      | cons second later => exact ⟨_, by simp [List.intercalate, List.intersperse]; rfl⟩
    obtain ⟨more, same⟩ := starts
    rw [same]
    refine ⟨List.cons_ne_nil _ _, ?_⟩
    intro rooted
    exact here.no_slash (by rw [Option.some.inj rooted]; exact List.mem_cons_self)

theorem locate_clean (cwd : Location) (path : List UInt8) :
    locate cwd (clean path) = locate cwd path := by
  have no_slash := elements_no_slash path
  unfold clean
  dsimp only
  by_cases rooted : Rooted path
  · have root : decide (Rooted path) = true → ([] : Location) = [] := fun _ => rfl
    obtain ⟨kept, same⟩ := cleanElements_walk _ root (elements path) no_slash
    rw [if_pos rooted, locate, locate, if_pos rooted, if_pos (show Rooted (slash :: _) from rfl),
      ← same]
    have leading := walk_elements_append [] []
      ([slash].intercalate (cleanElements (decide (Rooted path)) (elements path)))
    rw [List.nil_append] at leading
    rw [leading, walk_intercalate kept, elements, List.splitOn_nil, walk_skip _ (.inl rfl)]
  · have unrooted : decide (Rooted path) = true → cwd = [] := by
      intro impossible
      exact absurd (of_decide_eq_true impossible) rooted
    obtain ⟨kept, same⟩ := cleanElements_walk _ unrooted (elements path) no_slash
    rw [if_neg rooted, locate, locate, if_neg rooted, ← same]
    by_cases none : cleanElements (decide (Rooted path)) (elements path) = []
    · rw [none, show [slash].intercalate ([] : List Name) = [] from rfl, if_pos rfl,
        if_neg (show ¬ Rooted dot by decide), walk_nil, elements_of_no_slash (by decide),
        walk_skip cwd (.inr rfl)]
    · obtain ⟨some, relative⟩ := intercalate_head kept none
      rw [if_neg some, if_neg relative, walk_intercalate kept]

/-! ## Joining -/

theorem join_cons_of_empty (parts : List (List UInt8)) : join ([] :: parts) = join parts := by
  simp [join]

theorem join_cons {first : List UInt8} (nonempty : first ≠ []) (parts : List (List UInt8)) :
    join (first :: parts) = clean ([slash].intercalate (first :: parts)) := by
  simp [join, nonempty]

theorem locate_append (cwd : Location) (nonempty : path ≠ []) (more : List UInt8) :
    locate cwd (path ++ slash :: more) = walk (locate cwd path) (elements more) := by
  have same : Rooted (path ++ slash :: more) ↔ Rooted path := by
    cases path with
    | nil => exact absurd rfl nonempty
    | cons c rest => exact Iff.rfl
  unfold locate
  by_cases rooted : Rooted path
  · rw [if_pos rooted, if_pos (same.mpr rooted), walk_elements_append]
  · rw [if_neg rooted, if_neg (mt same.mp rooted), walk_elements_append]

theorem intercalate_concat (first : List UInt8) (rest : List (List UInt8)) (last : List UInt8) :
    [slash].intercalate (first :: (rest ++ [last])) =
      [slash].intercalate (first :: rest) ++ slash :: last := by
  induction rest generalizing first with
  | nil => simp [List.intercalate, List.intersperse]
  | cons second rest ih =>
    have step : ∀ parts : List (List UInt8), [slash].intercalate (first :: second :: parts) =
        first ++ slash :: [slash].intercalate (second :: parts) := by
      intro parts
      simp [List.intercalate, List.intersperse]
    rw [List.cons_append, step, step, ih, List.append_assoc, List.cons_append]

theorem locate_join_concat (cwd : Location) (parts : List (List UInt8)) {last : List UInt8}
    (relative : ¬ Rooted last) :
    locate cwd (join (parts ++ [last])) =
      walk (locate cwd (join parts)) (elements last) := by
  induction parts with
  | nil =>
    have here : locate cwd (join []) = cwd := by
      rw [join, List.dropWhile_nil, locate, if_neg (by decide), elements, List.splitOn_nil,
        walk_skip cwd (.inl rfl)]
    rw [here, List.nil_append]
    by_cases empty : last = []
    · rw [empty, join_cons_of_empty, here, elements, List.splitOn_nil, walk_skip cwd (.inl rfl)]
    · have alone : [slash].intercalate [last] = last := by simp [List.intercalate]
      rw [join_cons empty, alone, locate_clean, locate, if_neg relative]
  | cons first rest ih =>
    by_cases empty : first = []
    · rw [empty, List.cons_append, join_cons_of_empty, join_cons_of_empty, ih]
    · have some : [slash].intercalate (first :: rest) ≠ [] := by
        cases rest with
        | nil => simpa [List.intercalate] using empty
        | cons second later => simp [List.intercalate, List.intersperse, empty]
      rw [List.cons_append, join_cons empty, join_cons empty, locate_clean, locate_clean,
        intercalate_concat, locate_append cwd some]

theorem locate_join_plain (cwd : Location) (parts : List (List UInt8)) {name : Name}
    (plain : Plain name) :
    locate cwd (join (parts ++ [name])) = locate cwd (join parts) ++ [name] := by
  have relative : ¬ Rooted name := by
    intro rooted
    obtain ⟨rest, same⟩ := List.head?_eq_some_iff.mp rooted
    exact plain.no_slash (by rw [same]; exact List.mem_cons_self)
  rw [locate_join_concat cwd parts relative, elements_of_no_slash plain.no_slash,
    walk_plain _ plain]

/-! ## The working directory itself -/

theorem walk_of_plain (plain : ∀ e ∈ es, Plain e) (start : Location) :
    walk start es = start ++ es := by
  induction es generalizing start with
  | nil => rw [walk_nil, List.append_nil]
  | cons e rest ih =>
    have later := ih (fun e' member => plain e' (List.mem_cons_of_mem _ member)) (start ++ [e])
    rw [← List.singleton_append, walk_append, walk_plain start (plain e List.mem_cons_self),
      later, List.append_assoc]

theorem dotDot_mem_foldl (es : List Name) {stack : List Name} (member : dotDot ∈ stack) :
    dotDot ∈ es.foldl (cleanStep false) stack := by
  induction es generalizing stack with
  | nil => exact member
  | cons e rest ih =>
    apply ih
    unfold cleanStep
    by_cases skipped : e = [] ∨ e = dot
    · rw [if_pos skipped]
      exact member
    · rw [if_neg skipped]
      by_cases up : e = dotDot
      · rw [if_pos up]
        cases stack with
        | nil => cases member
        | cons top rest =>
          by_cases double : top = dotDot
          · simp [double]
          · have deeper := (List.mem_cons.mp member).resolve_left (Ne.symm double)
            simpa [double] using deeper
      · rw [if_neg up]
        exact List.mem_cons_of_mem _ member

theorem clean_eq_dot (isDot : clean path = dot) :
    ¬ Rooted path ∧ cleanElements false (elements path) = [] := by
  unfold clean at isDot
  dsimp only at isDot
  by_cases rooted : Rooted path
  · rw [if_pos rooted] at isDot
    exact absurd isDot (by simp [slash, dot])
  · rw [if_neg rooted, decide_eq_false rooted] at isDot
    refine ⟨rooted, ?_⟩
    by_contra nonempty
    have unrooted : false = true → ([] : Location) = [] := fun _ => rfl
    obtain ⟨kept, -⟩ := cleanElements_walk false unrooted (elements path) (elements_no_slash path)
    have split := List.splitOn_intercalate slash (fun e member => (kept e member).no_slash) nonempty
    rw [if_neg (intercalate_head kept nonempty).1] at isDot
    rw [isDot] at split
    have single : cleanElements false (elements path) = [dot] := by
      rw [← split]
      exact elements_of_no_slash (by decide)
    exact (kept dot (by rw [single]; exact List.mem_singleton_self _)).not_dot rfl

theorem cwd_prefix_of_join (cwd : Location) {first more : List UInt8}
    (isDot : join [first, more] = dot) : cwd <+: locate cwd first := by
  by_cases empty : first = []
  · have here : locate cwd first = cwd := by
      rw [empty, locate, if_neg (by decide), elements, List.splitOn_nil, walk_skip cwd (.inl rfl)]
    exact here.symm ▸ List.prefix_rfl
  · have two : [slash].intercalate [first, more] = first ++ slash :: more := by
      simp [List.intercalate, List.intersperse]
    rw [join_cons empty, two] at isDot
    obtain ⟨relative, gone⟩ := clean_eq_dot isDot
    have relative' : ¬ Rooted first := by
      cases first with
      | nil => exact absurd rfl empty
      | cons c rest => exact relative
    have unrooted : false = true → cwd = [] := fun impossible => (by cases impossible)
    obtain ⟨kept, same⟩ := cleanElements_walk false unrooted (elements first)
      (elements_no_slash first)
    have inner : ∀ e ∈ cleanElements false (elements first), e ≠ dotDot := by
      rintro e member rfl
      have stays := dotDot_mem_foldl (elements more) (List.mem_reverse.mp member)
      rw [← List.foldl_append, ← elements_append] at stays
      rw [cleanElements, List.reverse_eq_nil_iff] at gone
      rw [gone] at stays
      cases stays
    rw [locate, if_neg relative', ← same,
      walk_of_plain fun e member => (kept e member).plain (inner e member)]
    exact List.prefix_append _ _

end FilePath
