import PqFl.CheckpointWrites
import PqFl.Configuration

/-!
# Checkpoint paths

The tenant and the model of a submission are parts of the path of its checkpoint.
They are any identifiers, `.` and `..` among them, which do not name a directory
of their own.
-/

set_option autoImplicit false

namespace PqFl.CheckpointPaths
open PqFl.Identifiers PqFl.SeparatedKeys PqFl.Crypto PqFl.Aggregation PqFl.Buffer
open PqFl.CheckpointWrites PqFl.Process PqFl.Configuration PqFl.Floats

theorem segments_ne_nil (cs : List Char) : segments cs ≠ [] := by
  cases cs with
  | nil => simp [segments]
  | cons ch cs =>
    rw [segments]
    split
    · simp
    · split
      · simp
      · simp

theorem segments_plain {cs : List Char} (h : '/' ∉ cs) : segments cs = [cs] := by
  induction cs with
  | nil => rfl
  | cons ch cs ih =>
    rw [List.mem_cons, not_or] at h
    rw [segments, if_neg (Ne.symm h.1), ih h.2]

theorem segments_append (cs cs' : List Char) :
    segments (cs ++ '/' :: cs') = segments cs ++ segments cs' := by
  induction cs with
  | nil => rfl
  | cons ch cs ih =>
    rw [List.cons_append, segments, segments]
    by_cases hch : ch = '/'
    · rw [if_pos hch, if_pos hch, ih, List.cons_append]
    · rw [if_neg hch, if_neg hch, ih]
      cases hsegments : segments cs with
      | nil => exact absurd hsegments (segments_ne_nil cs)
      | cons first others => rfl

theorem follow_nil (directory : List (List Char)) : follow directory [] = directory :=
  if_pos (Or.inl rfl)

theorem follow_here (directory : List (List Char)) : follow directory ['.'] = directory :=
  if_pos (Or.inr rfl)

theorem follow_name {part : List Char} (directory : List (List Char)) (hempty : part ≠ [])
    (hhere : part ≠ ['.']) (hparent : part ≠ ['.', '.']) :
    follow directory part = part :: directory := by
  unfold follow
  rw [if_neg (not_or.mpr ⟨hempty, hhere⟩), if_pos hparent]

/-- Where `..` leads: further up, nowhere from the root, or out of the last name. -/
inductive Climb (directory : List (List Char)) : List (List Char) → Prop
  | above : Climb directory (['.', '.'] :: directory)
  | root : Climb directory directory
  | out {last : List Char} {rest : List (List Char)} (hlast : last ≠ ['.', '.'])
      (hdirectory : directory = last :: rest) : Climb directory rest

theorem follow_climb (directory : List (List Char)) :
    Climb directory (follow directory ['.', '.']) := by
  unfold follow
  rw [if_neg (by decide), if_neg (not_not.mpr rfl)]
  cases directory with
  | nil => exact .above
  | cons last rest =>
    by_cases hlast : last = ['.', '.']
    · simp only [hlast, if_true]
      exact .above
    · by_cases hroot : last = ['/']
      · simp only [hroot, if_true]
        exact .root
      · simp only [hlast, hroot, if_false]
        exact .out hlast rfl

theorem rootOf_append {path : String} (rest : String) (h : path ≠ "") :
    rootOf (path ++ rest) = rootOf path := by
  have hpath : path.toList ≠ [] := fun hnil => h (String.toList_eq_nil_iff.mp hnil)
  rw [rootOf, rootOf, String.toList_append, List.head?_append_of_ne_nil _ hpath]

theorem rootOf_plain {part : String} (h : '/' ∉ part.toList) : rootOf part = [] := by
  apply if_neg
  intro hhead
  exact h (List.mem_of_mem_head? hhead)

theorem resolvePath_joinPath (path : String) {part : String} (h : '/' ∉ part.toList) :
    resolvePath (joinPath path part) = follow (resolvePath path) part.toList := by
  have hplain := segments_plain h
  unfold joinPath
  by_cases hpath : path = ""
  · subst hpath
    rw [if_pos (Or.inl rfl), String.empty_append, resolvePath, hplain, rootOf_plain h]
    rfl
  by_cases hslash : path.toList.getLast? = some '/'
  · obtain ⟨cs, hcs⟩ := List.getLast?_eq_some_iff.mp hslash
    have hbefore : resolvePath path = (segments cs).foldl follow (rootOf path) := by
      rw [resolvePath, hcs, segments_append, List.foldl_append]
      exact follow_nil _
    rw [if_pos (Or.inr hslash), hbefore, resolvePath, rootOf_append part hpath,
      String.toList_append, hcs, List.append_assoc, List.singleton_append, segments_append, hplain,
      List.foldl_append]
    rfl
  · have hjoined : (path ++ "/" ++ part).toList = path.toList ++ '/' :: part.toList := by
      rw [String.toList_append, String.toList_append, List.append_assoc]
      rfl
    rw [if_neg (not_or.mpr ⟨hpath, hslash⟩), resolvePath, hjoined, segments_append, hplain,
      List.foldl_append, String.append_assoc, rootOf_append _ hpath]
    rfl

theorem slash_notMem_checkpointFile (round : ℤ) : '/' ∉ (checkpointFile round).toList := by
  intro h
  unfold checkpointFile at h
  rw [String.toList_append, String.toList_append, List.mem_append, List.mem_append] at h
  rcases h with (h | h) | h
  · exact absurd h (by decide)
  · rcases decimal_of_mem_toString h with h | h
    · exact absurd h (by decide)
    · exact absurd h (by decide)
  · exact absurd h (by decide)

theorem checkpointFile_inj {round round' : ℤ}
    (h : (checkpointFile round).toList = (checkpointFile round').toList) : round = round' := by
  have hfile : checkpointFile round = checkpointFile round' := String.toList_inj.mp h
  unfold checkpointFile at hfile
  apply toString_inj
  exact (String.append_right_inj _).mp ((String.append_left_inj _).mp hfile)

theorem resolvePath_checkpointPath (dir t m : String) (round : ℤ) :
    resolvePath (checkpointPath dir t m round) =
      (checkpointFile round).toList :: resolvePath (scopedDir dir t m) := by
  have hhead : ∃ rest, (checkpointFile round).toList = 'g' :: 'l' :: 'o' :: rest := by
    unfold checkpointFile
    rw [String.toList_append, String.toList_append]
    exact ⟨_, rfl⟩
  obtain ⟨rest, hrest⟩ := hhead
  rw [checkpointPath, resolvePath_joinPath _ (slash_notMem_checkpointFile round), hrest]
  exact follow_name _ (by simp) (by simp) (by simp)

theorem checkpointPath_inj {dir t m : String} {round round' : ℤ}
    (h : resolvePath (checkpointPath dir t m round) =
      resolvePath (checkpointPath dir t m round')) : round = round' := by
  rw [resolvePath_checkpointPath, resolvePath_checkpointPath] at h
  exact checkpointFile_inj (List.cons.inj h).1

/-- A part which is the name of a directory. -/
def Names (part : String) : Prop := part ≠ "." ∧ part ≠ ".."

/-- An identifier which is not empty. -/
structure Accepted (part : String) : Prop where
  nonempty : part ≠ ""
  short : part.toList.length ≤ 128
  allowed : part.toList.all isAllowedIdentifierChar = true

theorem Accepted.valid {part : String} (h : Accepted part) {fieldName : String}
    (hfield : fieldName ≠ "") : validateIdentifier part fieldName true = "" :=
  (validateIdentifier_eq_empty hfield).mpr ⟨fun _ => rfl, h.short, h.allowed⟩

theorem Accepted.no_slash {part : String} (h : Accepted part) : '/' ∉ part.toList := by
  intro hslash
  have hallowed := List.all_eq_true.mp h.allowed '/' hslash
  exact absurd hallowed (by decide)

theorem Accepted.tenant {part : String} (h : Accepted part) : normalizeTenant part = part :=
  if_neg h.nonempty

theorem Accepted.model {part : String} (h : Accepted part) : normalizeModel part = part :=
  if_neg h.nonempty

theorem Accepted.follow_name {part : String} (h : Accepted part) (hnames : Names part)
    (directory : List (List Char)) :
    follow directory part.toList = part.toList :: directory := by
  apply CheckpointPaths.follow_name
  · exact fun hnil => h.nonempty (String.toList_eq_nil_iff.mp hnil)
  · exact fun hdot => hnames.1 (String.toList_inj.mp hdot)
  · exact fun hdots => hnames.2 (String.toList_inj.mp hdots)

theorem accepted_tenant {t : String} (h : validateIdentifier t "tenant_id" true = "") :
    Accepted (normalizeTenant t) := by
  have ht := (validateIdentifier_eq_empty (by decide)).mp h
  unfold normalizeTenant
  by_cases hempty : t = ""
  · rw [if_pos hempty]
    exact ⟨by decide, by decide, by decide⟩
  · rw [if_neg hempty]
    exact ⟨hempty, ht.2.1, ht.2.2⟩

theorem accepted_model {m : String} (h : validateIdentifier m "model_id" true = "") :
    Accepted (normalizeModel m) := by
  have hm := (validateIdentifier_eq_empty (by decide)).mp h
  unfold normalizeModel
  by_cases hempty : m = ""
  · rw [if_pos hempty]
    exact ⟨by decide, by decide, by decide⟩
  · rw [if_neg hempty]
    exact ⟨hempty, hm.2.1, hm.2.2⟩

theorem resolvePath_scopedDir {dir t m : String} (ht : Accepted (normalizeTenant t))
    (hm : Accepted (normalizeModel m)) : resolvePath (scopedDir dir t m) =
      follow (follow (resolvePath dir) (normalizeTenant t).toList) (normalizeModel m).toList := by
  rw [scopedDir, resolvePath_joinPath _ hm.no_slash, resolvePath_joinPath _ ht.no_slash]

def Inside (directory path : String) : Prop := ∃ inner, inner ≠ [] ∧
  resolvePath path = inner ++ resolvePath directory ∧
  ∀ part ∈ inner, part ≠ ['.', '.'] ∧ part ≠ ['/']

/-- No other model and no other round has this file. -/
def Separate (dir t m : String) (round : ℤ) : Prop := ∀ t' m' round',
  validateIdentifier t' "tenant_id" true = "" → validateIdentifier m' "model_id" true = "" →
  1 ≤ round' →
  (normalizeTenant t', normalizeModel m', round') ≠
    (normalizeTenant t, normalizeModel m, round) →
  resolvePath (checkpointPath dir t' m' round') ≠ resolvePath (checkpointPath dir t m round)

theorem names_cases (part : String) : part = "." ∨ part = ".." ∨ Names part := by
  by_cases hhere : part = "."
  · exact Or.inl hhere
  by_cases hparent : part = ".."
  · exact Or.inr (Or.inl hparent)
  · exact Or.inr (Or.inr ⟨hhere, hparent⟩)

theorem Climb.length {directory top : List (List Char)} (h : Climb directory top) :
    top.length ≤ directory.length + 1 := by
  cases h with
  | above => exact le_refl _
  | root => omega
  | out hlast hdirectory =>
    have := congrArg List.length hdirectory
    rw [List.length_cons] at this
    omega

theorem follow_length {part : String} (h : Accepted part) (directory : List (List Char)) :
    (follow directory part.toList).length ≤ directory.length + 1 := by
  rcases names_cases part with rfl | rfl | hnames
  · exact Nat.le_succ _
  · exact (follow_climb directory).length
  · rw [h.follow_name hnames]
    exact le_refl _

theorem last_name {directory rest : List (List Char)} {part last : String} (hpart : Accepted part)
    (hlast : Names last) (h : follow directory part.toList = last.toList :: rest) :
    (part = last ∧ directory = rest) ∨ rest.length < directory.length := by
  rcases names_cases part with rfl | rfl | hnames
  · have hhere : directory = last.toList :: rest := h
    right
    rw [hhere, List.length_cons]
    omega
  · have hclimb := follow_climb directory
    have hparent : follow directory ['.', '.'] = last.toList :: rest := h
    rw [hparent] at hclimb
    generalize htop : last.toList :: rest = top at hclimb
    have hlength := congrArg List.length htop
    rw [List.length_cons] at hlength
    cases hclimb with
    | above => exact absurd (String.toList_inj.mp (List.cons.inj htop).1) hlast.2
    | root =>
      right
      omega
    | out hout hdirectory =>
      have hlonger := congrArg List.length hdirectory
      rw [List.length_cons] at hlonger
      right
      omega
  · rw [hpart.follow_name hnames] at h
    obtain ⟨hname, hrest⟩ := List.cons.inj h
    exact Or.inl ⟨String.toList_inj.mp hname, hrest⟩

theorem names_of_follow {directory : List (List Char)} {t m t' m' : String} (ht : Names t)
    (hm : Names m) (ht' : Accepted t') (hm' : Accepted m')
    (h : follow (follow directory t'.toList) m'.toList = m.toList :: t.toList :: directory) :
    t' = t ∧ m' = m := by
  rcases last_name hm' hm h with ⟨hmodel, htenant⟩ | hlonger
  · rcases last_name ht' ht htenant with ⟨htenant, -⟩ | hlonger
    · exact ⟨htenant, hmodel⟩
    · omega
  · have hshort := follow_length ht' directory
    rw [List.length_cons] at hlonger
    omega

theorem checkpointFile_ne {round : ℤ} : (checkpointFile round).toList ≠ ['.', '.'] ∧
    (checkpointFile round).toList ≠ ['/'] := by
  have hhead : (checkpointFile round).toList.head? = some 'g' := by
    unfold checkpointFile
    rw [String.toList_append, String.toList_append]
    rfl
  constructor
  · intro h
    rw [h] at hhead
    exact absurd hhead (by decide)
  · intro h
    rw [h] at hhead
    exact absurd hhead (by decide)

theorem Names.inside {t m : String} (ht : Accepted (normalizeTenant t))
    (hm : Accepted (normalizeModel m)) (hnt : Names (normalizeTenant t))
    (hnm : Names (normalizeModel m)) (dir : String) (round : ℤ) :
    Inside dir (checkpointPath dir t m round) := by
  have hname : ∀ part, Accepted part → Names part →
      part.toList ≠ ['.', '.'] ∧ part.toList ≠ ['/'] := by
    intro part hpart hnames
    constructor
    · intro h
      exact hnames.2 (String.toList_inj.mp h)
    · intro h
      apply hpart.no_slash
      rw [h]
      exact List.mem_singleton_self _
  refine ⟨[(checkpointFile round).toList, (normalizeModel m).toList, (normalizeTenant t).toList],
    List.cons_ne_nil _ _, ?_, ?_⟩
  · rw [resolvePath_checkpointPath, resolvePath_scopedDir ht hm, ht.follow_name hnt,
      hm.follow_name hnm]
    rfl
  · intro part hpart
    simp only [List.mem_cons, List.not_mem_nil, or_false] at hpart
    rcases hpart with rfl | rfl | rfl
    · exact checkpointFile_ne
    · exact hname _ hm hnm
    · exact hname _ ht hnt

theorem Names.separate {t m : String} (ht : Accepted (normalizeTenant t))
    (hm : Accepted (normalizeModel m)) (hnt : Names (normalizeTenant t))
    (hnm : Names (normalizeModel m)) (dir : String) (round : ℤ) : Separate dir t m round := by
  intro t' m' round' ht' hm' _ hne hsame
  rw [resolvePath_checkpointPath, resolvePath_checkpointPath, resolvePath_scopedDir ht hm,
    resolvePath_scopedDir (accepted_tenant ht') (accepted_model hm'), ht.follow_name hnt,
    hm.follow_name hnm] at hsame
  obtain ⟨hfile, hdir⟩ := List.cons.inj hsame
  obtain ⟨htenant, hmodel⟩ := names_of_follow hnt hnm (accepted_tenant ht') (accepted_model hm') hdir
  apply hne
  rw [htenant, hmodel, checkpointFile_inj hfile]

theorem Separate.follow_ne {dir t m t' m' : String} {round : ℤ} (h : Separate dir t m round)
    (hround : 1 ≤ round) (ht : Accepted (normalizeTenant t)) (hm : Accepted (normalizeModel m))
    (ht' : Accepted t') (hm' : Accepted m')
    (hne : (t', m') ≠ (normalizeTenant t, normalizeModel m)) :
    follow (follow (resolvePath dir) t'.toList) m'.toList ≠
      follow (follow (resolvePath dir) (normalizeTenant t).toList) (normalizeModel m).toList := by
  intro hsame
  apply h t' m' round (ht'.valid (by decide)) (hm'.valid (by decide)) hround
  · rw [ht'.tenant, hm'.model]
    intro heq
    obtain ⟨htenant, heq⟩ := Prod.mk.inj heq
    exact hne (Prod.ext htenant (Prod.mk.inj heq).1)
  · rw [resolvePath_checkpointPath, resolvePath_checkpointPath, resolvePath_scopedDir ht hm,
      resolvePath_scopedDir (ht'.tenant.symm ▸ ht') (hm'.model.symm ▸ hm'), ht'.tenant, hm'.model,
      hsame]

theorem accepted_here : Accepted "." := ⟨by decide, by decide, by decide⟩

theorem accepted_parent : Accepted ".." := ⟨by decide, by decide, by decide⟩

theorem Accepted.follow_back {part : String} (h : Accepted part) (hnames : Names part)
    (directory : List (List Char)) :
    follow (follow directory part.toList) ['.', '.'] = directory := by
  have hparent : part.toList ≠ ['.', '.'] := fun hdots => hnames.2 (String.toList_inj.mp hdots)
  have hroot : part.toList ≠ ['/'] := by
    intro hslash
    apply h.no_slash
    rw [hslash]
    exact List.mem_singleton_self _
  rw [h.follow_name hnames]
  unfold follow
  rw [if_neg (by decide), if_neg (not_not.mpr rfl)]
  simp only [hparent, hroot, if_false]

/-- From above a directory one name leads to a file inside it: its own, or any
name where nothing is above. -/
theorem name_below_parent {directory inner : List (List Char)} {file part : List Char}
    (hinner : ∀ part ∈ inner, part ≠ ['.', '.'] ∧ part ≠ ['/'])
    (h : file :: part :: follow directory ['.', '.'] = inner ++ directory) :
    follow directory ['.', '.'] = directory ∨ part :: follow directory ['.', '.'] = directory := by
  have hclimb := follow_climb directory
  generalize follow directory ['.', '.'] = top at hclimb h ⊢
  cases hclimb with
  | above =>
    have hparts : inner = [file, part, ['.', '.']] :=
      List.append_cancel_right (h.symm.trans rfl)
    exact absurd rfl (hinner ['.', '.'] (by simp [hparts])).1
  | root => exact Or.inl rfl
  | @out last _ hlast hdirectory =>
    right
    have hlength := congrArg List.length h
    rw [hdirectory] at h hlength
    simp only [List.length_append, List.length_cons] at hlength
    obtain ⟨first, rfl⟩ := List.length_eq_one_iff.mp (show inner.length = 1 by omega)
    rw [hdirectory]
    exact (List.cons.inj h).2

/-- Two levels above a directory there is no file inside it, unless the first
level is where the directory is. -/
theorem grandparent_outside {directory inner : List (List Char)} {file : List Char}
    (hinner : ∀ part ∈ inner, part ≠ ['.', '.'] ∧ part ≠ ['/'])
    (h : file :: follow (follow directory ['.', '.']) ['.', '.'] = inner ++ directory) :
    follow (follow directory ['.', '.']) ['.', '.'] = follow directory ['.', '.'] := by
  by_cases hroot : follow directory ['.', '.'] = directory
  · rw [hroot, hroot]
  have hclimb := follow_climb directory
  generalize follow directory ['.', '.'] = top at hclimb hroot h ⊢
  have hagain := follow_climb top
  generalize follow top ['.', '.'] = higher at hagain h ⊢
  have hlength := congrArg List.length h
  simp only [List.length_append, List.length_cons] at hlength
  cases hclimb with
  | above =>
    cases hagain with
    | above =>
      have hparts : inner = [file, ['.', '.'], ['.', '.']] :=
        List.append_cancel_right (h.symm.trans rfl)
      exact absurd rfl (hinner ['.', '.'] (by simp [hparts])).1
    | root => rfl
    | out hlast hdirectory => exact absurd (List.cons.inj hdirectory).1.symm hlast
  | root => exact absurd rfl hroot
  | @out last _ hlast hdirectory =>
    subst hdirectory
    rw [List.length_cons] at hlength
    cases hagain with
    | above =>
      rw [List.length_cons] at hlength
      obtain ⟨first, rfl⟩ := List.length_eq_one_iff.mp (show inner.length = 1 by omega)
      have hparts := (List.cons.inj h).2
      exact absurd (List.cons.inj hparts).1.symm hlast
    | root => rfl
    | out hbelow hdirectory =>
      have hhigher := congrArg List.length hdirectory
      rw [List.length_cons] at hhigher
      omega

theorem names_of_separate {dir t m : String} {round : ℤ} (hround : 1 ≤ round)
    (ht : Accepted (normalizeTenant t)) (hm : Accepted (normalizeModel m))
    (hinside : Inside dir (checkpointPath dir t m round)) (h : Separate dir t m round) :
    Names (normalizeTenant t) ∧ Names (normalizeModel m) := by
  obtain ⟨inner, -, hpath, hinner⟩ := hinside
  rw [resolvePath_checkpointPath, resolvePath_scopedDir ht hm] at hpath
  have hother : ∀ {t' m' : String}, Accepted t' → Accepted m' →
      (t', m') ≠ (normalizeTenant t, normalizeModel m) →
      follow (follow (resolvePath dir) t'.toList) m'.toList ≠ follow (follow (resolvePath dir)
        (normalizeTenant t).toList) (normalizeModel m).toList :=
    fun ht' hm' hne => h.follow_ne hround ht hm ht' hm' hne
  generalize normalizeTenant t = t at *
  generalize normalizeModel m = m at *
  have hhere : ∀ directory, follow directory ".".toList = directory := follow_here
  have htenant : t ≠ "." := by
    rintro rfl
    by_cases hmodel : m = "."
    · subst hmodel
      have hname : Accepted "model" := ⟨by decide, by decide, by decide⟩
      apply hother hname accepted_parent (by decide)
      exact hname.follow_back ⟨by decide, by decide⟩ _
    · exact hother hm accepted_here (by simp [hmodel]) rfl
  have hmodel : m ≠ "." := by
    rintro rfl
    exact hother accepted_here ht (by simp [htenant.symm]) rfl
  have hup : m ≠ ".." := by
    rintro rfl
    rcases names_cases t with rfl | rfl | hnames
    · exact htenant rfl
    · apply hother accepted_here accepted_parent (by decide)
      exact (grandparent_outside hinner hpath).symm
    · apply hother accepted_here accepted_here (by simp [hmodel.symm])
      exact (ht.follow_back hnames _).symm
  refine ⟨⟨htenant, ?_⟩, hmodel, hup⟩
  rintro rfl
  rw [hm.follow_name ⟨hmodel, hup⟩] at hpath hother
  rcases name_below_parent hinner hpath with hroot | hsame
  · apply hother accepted_here hm (by simp)
    rw [hhere, hm.follow_name ⟨hmodel, hup⟩]
    exact congrArg _ hroot.symm
  · apply hother accepted_here accepted_here (by simp [hmodel.symm])
    exact hsame.symm

variable {F : Type} [FloatArith F]

theorem addWeight_file (P : Primitives) (cfg : AggregationConfig F) (e : CryptoEngine)
    (files : CheckpointFiles) (b : WeightBuffer F) (q : Submission F) (draw : Draw F)
    {path : String} (h : readFile (addWeight P cfg e files b q draw).2.1 path ≠
      readFile files path) : resolvePath path =
        resolvePath (checkpointPath cfg.checkpointDir q.tenantId q.modelId q.round) := by
  have hwrite := addWeight_fileWrite P cfg e files b q draw
  by_contra hother
  apply h
  generalize (addWeight P cfg e files b q draw).2.1 = files' at hwrite
  generalize (addWeight P cfg e files b q draw).2.2 = attempt at hwrite
  cases hwrite with
  | none hout => rfl
  | removed haggregates htorn hout => exact AList.lookup_erase_ne hother
  | written haggregates hwritten hpath =>
    rw [readFile, hpath]
    exact AList.lookup_insert_ne hother

/-- An aggregation writes to one file only, and this file is inside the checkpoint
directory and no other round's exactly when the tenant and the model are names. -/
theorem checkpoint_confined (P : Primitives) (cfg : AggregationConfig F) (e : CryptoEngine)
    (files : CheckpointFiles) (b : WeightBuffer F) (q : Submission F) (draw : Draw F)
    (ht : validateIdentifier q.tenantId "tenant_id" true = "")
    (hm : validateIdentifier q.modelId "model_id" true = "") (hround : 1 ≤ q.round) :
    (∀ path, readFile (addWeight P cfg e files b q draw).2.1 path ≠ readFile files path →
      resolvePath path =
        resolvePath (checkpointPath cfg.checkpointDir q.tenantId q.modelId q.round)) ∧
    (Inside cfg.checkpointDir (checkpointPath cfg.checkpointDir q.tenantId q.modelId q.round) ∧
        Separate cfg.checkpointDir q.tenantId q.modelId q.round ↔
      Names (normalizeTenant q.tenantId) ∧ Names (normalizeModel q.modelId)) := by
  have htenant := accepted_tenant ht
  have hmodel := accepted_model hm
  constructor
  · intro path hpath
    exact addWeight_file P cfg e files b q draw hpath
  constructor
  · rintro ⟨hinside, hseparate⟩
    exact names_of_separate hround htenant hmodel hinside hseparate
  · rintro ⟨hnt, hnm⟩
    exact ⟨hnt.inside htenant hmodel hnm _ _, hnt.separate htenant hmodel hnm _ _⟩

/-- The model of a request which names none has a file of its own. -/
theorem checkpoint_confined_defaults : Inside "models" (checkpointPath "models" "" "" 1) ∧
    Separate "models" "" "" 1 := by
  have h := checkpoint_confined standInPrimitives standardDeployment.config.toAggregationConfig
    (initial standardDeployment firstStart).world.crypto ∅ emptyBuffer
    ⟨"", "", "a", 1, 1, [Arith.ofInt 0], 1⟩ (calm 0).draw (by decide) (by decide) (by decide)
  exact h.2.mpr ⟨⟨by decide, by decide⟩, by decide, by decide⟩

/-- A tenant `..` with a model `..` takes its checkpoint out of the directory, and
the model `.` of the tenant `a` shares its file with the model `a` of the tenant `.`. -/
theorem parent_checkpoint_outside :
    validateIdentifier ".." "tenant_id" true = "" ∧ validateIdentifier ".." "model_id" true = "" ∧
    resolvePath (checkpointPath "models" ".." ".." 1) =
      ["global_model_round_1.bin".toList, "..".toList] ∧
    ¬ Inside "models" (checkpointPath "models" ".." ".." 1) ∧
    resolvePath (checkpointPath "models" "a" "." 1) =
      resolvePath (checkpointPath "models" "." "a" 1) ∧ ¬ Separate "models" "a" "." 1 := by
  have houtside : resolvePath (checkpointPath "models" ".." ".." 1) =
      ["global_model_round_1.bin".toList, "..".toList] := by decide +kernel
  have hshared : resolvePath (checkpointPath "models" "a" "." 1) =
      resolvePath (checkpointPath "models" "." "a" 1) := by decide +kernel
  refine ⟨by decide, by decide, houtside, ?_, hshared, ?_⟩
  · rintro ⟨inner, -, hpath, -⟩
    rw [houtside] at hpath
    have hlast := congrArg List.getLast? hpath
    rw [show resolvePath "models" = ["models".toList] by decide +kernel,
      List.getLast?_concat] at hlast
    exact absurd hlast (by decide +kernel)
  · intro hseparate
    exact hseparate "." "a" 1 (by decide) (by decide) le_rfl (by decide) hshared.symm

end PqFl.CheckpointPaths
