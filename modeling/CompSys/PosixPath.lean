import Mathlib.Data.List.Basic

/-!
# Paths

Absolute and relative paths as texts, the way that `posixpath` joins and normalises them, and the
names that a path goes through.
-/
namespace CompSys.PosixPath

abbrev Path := List Char

def dot : Path := ['.']
def dotDot : Path := ['.', '.']

/-- The name of an entry of a directory. -/
structure IsName (name : Path) : Prop where
  ne_nil : name ≠ []
  slash_not_mem : '/' ∉ name
  ne_dot : name ≠ dot
  ne_dotDot : name ≠ dotDot

/-- The names of a path, in their order. -/
def components (path : Path) : List Path := (path.splitOn '/').filter (· ≠ [])

/-- The absolute path with these names. -/
def rooted (names : List Path) : Path := '/' :: ['/'].intercalate names

def isAbs (path : Path) : Bool := path.head? = some '/'

def join (a b : Path) : Path :=
  if isAbs b then b
  else if a = [] ∨ a.getLast? = some '/' then a ++ b
  else a ++ '/' :: b

/-- Two slashes in front are kept, three or more are one. -/
def initialSlashes (path : Path) : ℕ :=
  if ¬isAbs path then 0
  else if ['/', '/'] <+: path ∧ ¬['/', '/', '/'] <+: path then 2
  else 1

/-- The loop of `normpath` over the parts of a path. The names that it has gathered are in
`names`, the last one in front. -/
def gather (absolute : Bool) (names : List Path) : List Path → List Path
  | [] => names.reverse
  | comp :: comps =>
    if comp ∈ [[], dot] then gather absolute names comps
    else if comp ≠ dotDot ∨ (¬absolute ∧ names = []) ∨ names.head? = some dotDot then
      gather absolute (comp :: names) comps
    else gather absolute names.tail comps

def normpath (path : Path) : Path :=
  if path = [] then dot
  else
    let slashes := initialSlashes path
    let names := gather (slashes ≠ 0) [] (path.splitOn '/')
    let text := List.replicate slashes '/' ++ ['/'].intercalate names
    if text = [] then dot else text

def abspath (cwd path : Path) : Path :=
  normpath (if isAbs path then path else join cwd path)

/-- The path of `path` stands in the directory, at any depth, and is not the directory itself. -/
def Inside (directory path : List Path) : Prop := directory <+: path ∧ directory ≠ path

/-! ## Names and texts -/

section Names

/-- The parts between the separators. -/
theorem slash_not_mem_splitOn {path part : Path} (h : part ∈ path.splitOn '/') : '/' ∉ part := by
  induction path generalizing part with
  | nil =>
    rw [List.splitOn_nil, List.mem_singleton] at h
    rw [h]
    exact List.not_mem_nil
  | cons c path ih =>
    rw [List.splitOn_cons_eq_if_modifyHead] at h
    by_cases hc : c = '/'
    · rw [if_pos (beq_iff_eq.mpr hc), List.mem_cons] at h
      rcases h with rfl | h
      · exact List.not_mem_nil
      · exact ih h
    · rw [if_neg (by simpa using hc)] at h
      obtain ⟨first, rest, hparts⟩ := List.exists_cons_of_ne_nil (List.splitOn_ne_nil '/' path)
      rw [hparts] at ih h
      rcases List.mem_cons.mp h with rfl | h
      · rw [List.mem_cons, not_or]
        exact ⟨Ne.symm hc, ih List.mem_cons_self⟩
      · exact ih (List.mem_cons_of_mem _ h)

/-- Only names are gathered for an absolute path. -/
theorem isName_gather {names comps : List Path} (hnames : ∀ name ∈ names, IsName name)
    (hcomps : ∀ comp ∈ comps, '/' ∉ comp) : ∀ name ∈ gather true names comps, IsName name := by
  induction comps generalizing names with
  | nil =>
    intro name h
    exact hnames name (List.mem_reverse.mp h)
  | cons comp comps ih =>
    have hrest : ∀ comp ∈ comps, '/' ∉ comp := fun c hc => hcomps c (List.mem_cons_of_mem _ hc)
    rw [gather]
    split
    case isTrue => exact ih hnames hrest
    case isFalse hskip =>
      rw [List.mem_pair, not_or] at hskip
      split
      case isTrue hkeep =>
        refine ih ?_ hrest
        intro name hname
        rcases List.mem_cons.mp hname with rfl | hname
        · have hproper : name ≠ dotDot := by
            intro hname
            rcases hkeep with hkeep | ⟨hkeep, -⟩ | hkeep
            · exact hkeep hname
            · exact hkeep rfl
            · exact (hnames _ (List.mem_of_mem_head? hkeep)).ne_dotDot rfl
          exact ⟨hskip.1, hcomps _ List.mem_cons_self, hskip.2, hproper⟩
        · exact hnames name hname
      case isFalse => exact ih (fun name h => hnames name (List.mem_of_mem_tail h)) hrest

variable {names : List Path}

theorem components_intercalate (h : ∀ name ∈ names, IsName name) :
    components (['/'].intercalate names) = names := by
  cases names with
  | nil => rfl
  | cons name rest =>
    rw [components, List.splitOn_intercalate '/' (fun l hl => (h l hl).slash_not_mem)
      (List.cons_ne_nil _ _)]
    refine List.filter_eq_self.mpr fun l hl => ?_
    exact decide_eq_true (h l hl).ne_nil

/-- The names are found again behind any number of slashes. -/
theorem components_text (h : ∀ name ∈ names, IsName name) (slashes : ℕ) :
    components (List.replicate slashes '/' ++ ['/'].intercalate names) = names := by
  induction slashes with
  | zero => exact components_intercalate h
  | succ slashes ih =>
    rw [List.replicate_succ, List.cons_append, components, List.splitOn_cons_eq_if_modifyHead,
      if_pos BEq.rfl]
    exact ih

end Names

/-! ## One directory in another -/

section Prefix

/-- A text without a separator. -/
theorem prefix_append_cons_iff {a b : Path} (ha : '/' ∉ a) (c : Path) :
    a <+: b ++ '/' :: c ↔ a <+: b := by
  induction a generalizing b with
  | nil => exact iff_of_true List.nil_prefix List.nil_prefix
  | cons x a ih =>
    rw [List.mem_cons, not_or] at ha
    cases b with
    | nil =>
      rw [List.nil_append, List.cons_prefix_cons]
      exact iff_of_false (fun h => ha.1 h.1.symm) (by simp)
    | cons y b => rw [List.cons_append, List.cons_prefix_cons, List.cons_prefix_cons, ih ha.2]

theorem append_cons_prefix_iff {a b : Path} (ha : '/' ∉ a) (hb : '/' ∉ b) (c d : Path) :
    a ++ '/' :: c <+: b ++ '/' :: d ↔ a = b ∧ c <+: d := by
  induction a generalizing b with
  | nil =>
    cases b with
    | nil =>
      rw [List.nil_append, List.nil_append, List.cons_prefix_cons]
      exact and_congr_left' (iff_of_true rfl rfl)
    | cons y b =>
      rw [List.mem_cons, not_or] at hb
      rw [List.nil_append, List.cons_append, List.cons_prefix_cons]
      exact iff_of_false (fun h => hb.1 h.1) (by simp)
  | cons x a ih =>
    rw [List.mem_cons, not_or] at ha
    cases b with
    | nil =>
      rw [List.nil_append, List.cons_append, List.cons_prefix_cons]
      exact iff_of_false (fun h => ha.1 h.1.symm) (by simp)
    | cons y b =>
      rw [List.mem_cons, not_or] at hb
      rw [List.cons_append, List.cons_append, List.cons_prefix_cons, ih ha.2 hb.2, List.cons_eq_cons,
        and_assoc]

/-- Two lists of names where the second one starts with the first one, except that the last name of
the first one may go on. -/
def StartsWith (p q : List Path) : Prop :=
  ∃ front last more rest, p = front ++ [last] ∧ q = front ++ (last ++ more) :: rest

theorem startsWith_singleton_iff (a b : Path) (q : List Path) :
    StartsWith [a] (b :: q) ↔ a <+: b := by
  constructor
  · rintro ⟨front, last, more, rest, hp, hq⟩
    cases front with
    | nil =>
      cases hp
      cases hq
      exact List.prefix_append _ _
    | cons name front => simp at hp
  · rintro ⟨more, rfl⟩
    exact ⟨[], a, more, q, rfl, rfl⟩

theorem startsWith_cons_iff (a a' b : Path) (p q : List Path) :
    StartsWith (a :: a' :: p) (b :: q) ↔ a = b ∧ StartsWith (a' :: p) q := by
  constructor
  · rintro ⟨front, last, more, rest, hp, hq⟩
    cases front with
    | nil => simp at hp
    | cons name front =>
      rw [List.cons_append, List.cons_eq_cons] at hp hq
      exact ⟨hp.1.trans hq.1.symm, front, last, more, rest, hp.2, hq.2⟩
  · rintro ⟨rfl, front, last, more, rest, hp, hq⟩
    exact ⟨a :: front, last, more, rest, by rw [hp, List.cons_append], by rw [hq, List.cons_append]⟩

theorem not_startsWith_nil (p : List Path) : ¬StartsWith p [] := by
  rintro ⟨front, last, more, rest, -, hq⟩
  simp at hq

/-- A text of names starts with another one exactly if the names do. -/
theorem intercalate_prefix_iff {p q : List Path} (hp : ∀ name ∈ p, IsName name)
    (hq : ∀ name ∈ q, IsName name) (hne : p ≠ []) :
    ['/'].intercalate p <+: ['/'].intercalate q ↔ StartsWith p q := by
  induction p generalizing q with
  | nil => exact absurd rfl hne
  | cons a p ih =>
    have ha := hp a List.mem_cons_self
    cases q with
    | nil =>
      refine iff_of_false (fun h => ?_) (not_startsWith_nil _)
      have hnil := List.prefix_nil.mp h
      cases p with
      | nil => exact ha.ne_nil (by simpa using hnil)
      | cons a' p => simp at hnil
    | cons b q =>
      have hb := hq b List.mem_cons_self
      cases p with
      | nil =>
        rw [startsWith_singleton_iff, List.intercalate_singleton]
        cases q with
        | nil => rw [List.intercalate_singleton]
        | cons b' q =>
          rw [List.intercalate_cons_cons, List.append_assoc]
          exact prefix_append_cons_iff ha.slash_not_mem _
      | cons a' p =>
        rw [startsWith_cons_iff, List.intercalate_cons_cons, List.append_assoc]
        cases q with
        | nil =>
          rw [List.intercalate_singleton]
          refine iff_of_false (fun h => hb.slash_not_mem (h.subset ?_))
            fun h => not_startsWith_nil _ h.2
          exact List.mem_append_right _ List.mem_cons_self
        | cons b' q =>
          rw [List.intercalate_cons_cons, List.append_assoc]
          refine (append_cons_prefix_iff ha.slash_not_mem hb.slash_not_mem _ _).trans ?_
          refine and_congr_right fun _ => ih (fun n hn => hp n (List.mem_cons_of_mem _ hn))
            (fun n hn => hq n (List.mem_cons_of_mem _ hn)) (List.cons_ne_nil _ _)

/-- Another entry of the directory above, with a name that goes on where the name of `p` ends, or
something in it. -/
def BesidesAs (p q : List Path) : Prop :=
  ∃ front last more rest, more ≠ [] ∧ p = front ++ [last] ∧ q = front ++ (last ++ more) :: rest

theorem startsWith_iff {p q : List Path} (hne : p ≠ []) :
    StartsWith p q ↔ p <+: q ∨ BesidesAs p q := by
  constructor
  · rintro ⟨front, last, more, rest, rfl, rfl⟩
    by_cases hmore : more = []
    · refine .inl ⟨rest, ?_⟩
      rw [hmore, List.append_nil, List.append_assoc, List.singleton_append]
    · exact .inr ⟨front, last, more, rest, hmore, rfl, rfl⟩
  · rintro (⟨rest, rfl⟩ | ⟨front, last, more, rest, -, rfl, rfl⟩)
    · refine ⟨p.dropLast, p.getLast hne, [], rest, (List.dropLast_concat_getLast hne).symm, ?_⟩
      nth_rewrite 1 [← List.dropLast_concat_getLast hne]
      rw [List.append_nil, List.append_assoc, List.singleton_append]
    · exact ⟨front, last, more, rest, rfl, rfl⟩

theorem not_prefix_of_besidesAs {p q : List Path} (h : BesidesAs p q) : ¬p <+: q := by
  obtain ⟨front, last, more, rest, hmore, rfl, rfl⟩ := h
  rw [List.prefix_append_right_inj, List.cons_prefix_cons]
  intro ⟨hlast, _⟩
  exact hmore (List.self_eq_append_right.mp hlast)

end Prefix

/-! ## Absolute paths -/

section Absolute

theorem initialSlashes_cons {path : Path} (h : isAbs path = false) :
    initialSlashes ('/' :: path) = 1 := by
  rw [initialSlashes, if_neg (show ¬¬isAbs ('/' :: path) from not_not.mpr rfl), if_neg]
  rintro ⟨⟨rest, hrest⟩, -⟩
  have hpath : '/' :: rest = path := List.cons_eq_cons.mp hrest |>.2
  rw [← hpath] at h
  cases h

theorem initialSlashes_cases {path : Path} (h : isAbs path) :
    initialSlashes path = 1 ∨ initialSlashes path = 2 := by
  rw [initialSlashes, if_neg (not_not.mpr h)]
  split
  · exact .inr rfl
  · exact .inl rfl

/-- The normal form of an absolute path. -/
theorem normpath_absolute {path : Path} (h : isAbs path) :
    ∃ names, (∀ name ∈ names, IsName name) ∧
      normpath path = List.replicate (initialSlashes path) '/' ++ ['/'].intercalate names := by
  have hpath : path ≠ [] := by
    rintro rfl
    cases h
  have hslashes : initialSlashes path ≠ 0 := by
    rcases initialSlashes_cases h with hone | htwo <;> omega
  refine ⟨gather true [] (path.splitOn '/'),
    isName_gather (by simp) (fun comp hcomp => slash_not_mem_splitOn hcomp), ?_⟩
  rw [normpath, if_neg hpath]
  simp only [decide_eq_true hslashes]
  refine if_neg fun hnil => hslashes ?_
  simpa using (List.append_eq_nil_iff.mp hnil).1

variable {directory : List Path} (hdirectory : ∀ name ∈ directory, IsName name)
include hdirectory

/-- The text of names does not start with a slash. -/
theorem isAbs_intercalate_append (hne : directory ≠ []) (behind : Path) :
    isAbs (['/'].intercalate directory ++ behind) = false := by
  cases directory with
  | nil => exact absurd rfl hne
  | cons name names =>
    have hname := hdirectory name List.mem_cons_self
    cases name with
    | nil => exact absurd rfl hname.ne_nil
    | cons c name =>
      have hc : c ≠ '/' := fun hc => hname.slash_not_mem (hc ▸ List.mem_cons_self)
      rw [List.intercalate_cons_cons_left]
      exact decide_eq_false (by simpa using hc)

theorem abspath_eq (path : Path) : ∃ names, (∀ name ∈ names, IsName name) ∧
    abspath (rooted directory) path =
      List.replicate (if initialSlashes path = 2 then 2 else 1) '/' ++ ['/'].intercalate names := by
  by_cases habs : isAbs path = true
  case pos =>
    obtain ⟨names, hnames, hnormal⟩ := normpath_absolute habs
    refine ⟨names, hnames, ?_⟩
    rw [abspath, if_pos habs, hnormal]
    rcases initialSlashes_cases habs with hone | htwo
    · rw [hone, if_neg (by decide)]
    · rw [htwo, if_pos rfl]
  case neg =>
    obtain ⟨tail, htail, hjoin⟩ : ∃ tail, isAbs tail = false ∧
        join (rooted directory) path = '/' :: tail := by
      rw [join, if_neg habs]
      by_cases hne : directory = []
      · rw [hne]
        exact ⟨path, eq_false_of_ne_true habs, rfl⟩
      · split
        · exact ⟨_, isAbs_intercalate_append hdirectory hne path, rfl⟩
        · exact ⟨_, isAbs_intercalate_append hdirectory hne ('/' :: path), rfl⟩
    obtain ⟨names, hnames, hnormal⟩ := normpath_absolute (show isAbs ('/' :: tail) from rfl)
    have hzero : initialSlashes path = 0 := if_pos habs
    refine ⟨names, hnames, ?_⟩
    rw [abspath, if_neg habs, hjoin, hnormal, initialSlashes_cons htail, hzero, if_neg (by decide)]

/-- Where the text of an absolute path starts with the text of the directory. -/
theorem rooted_prefix_iff (path : Path) :
    rooted directory <+: abspath (rooted directory) path ↔ directory = [] ∨
      initialSlashes path ≠ 2 ∧ StartsWith directory (components (abspath (rooted directory) path)) := by
  obtain ⟨names, hnames, habspath⟩ := abspath_eq hdirectory path
  rw [habspath, components_text hnames, rooted]
  by_cases hne : directory = []
  case pos =>
    refine iff_of_true ?_ (.inl hne)
    rw [hne, List.intercalate_nil]
    split <;> exact List.prefix_append _ _
  case neg =>
    rw [or_iff_right hne]
    split
    case isTrue htwo =>
      refine iff_of_false (fun h => ?_) fun h => h.1 htwo
      obtain ⟨behind, hbehind⟩ := (List.cons_prefix_cons.mp h).2
      have habs := isAbs_intercalate_append hdirectory hne behind
      rw [hbehind] at habs
      cases habs
    case isFalse hone =>
      rw [and_iff_right hone, ← intercalate_prefix_iff hdirectory hnames hne]
      exact List.cons_prefix_cons.trans (and_iff_right rfl)

end Absolute

end CompSys.PosixPath
