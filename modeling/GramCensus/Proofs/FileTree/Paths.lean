import GramCensus.Proofs.FileTree.Outline

/-!
# Where paths lead

Following the parts of a path step by step, links included, is a relation (`FileTree.Reaches`) that
`FileTree.resolve` decides for a number of links (`resolve_eq_ok_iff`). The place of a file that is
to be written is reached in the same way, up to a last step to a file or to where there is nothing
yet (`FileTree.Targets`).
-/

namespace GramCensus

namespace FileNode

/-- Where an entry with an outline leads that stands at a place. -/
def Outline.lead (place : List Name) : Outline → FileTree.Lead
  | .link target => .link target
  | _ => .place place

def Outline.isFolder : Outline → Bool
  | .folder _ => true
  | _ => false

/-- What has something below it is a folder. -/
theorem isFolder_of_snoc {root : FileNode} {base : List Name} {name : Name}
    (there : root.outlineAt (base ++ [name]) ≠ none) :
    ∃ names, root.outlineAt base = some (.folder names) := by
  rw [outlineAt, node?_append] at there
  rw [outlineAt]
  cases found : root.node? base with
  | none => simp [found] at there
  | some node =>
    cases node with
    | folder entries => exact ⟨_, rfl⟩
    | file data => simp [found, node?, entry?] at there
    | link target => simp [found, node?, entry?] at there
    | device kind => simp [found, node?, entry?] at there

end FileNode

namespace FileTree

open FileNode

variable {root : FileNode} {base place : List Name}

/-! ## One part of a path -/

/-- A part of a path that asks for an entry with its name. -/
structure EntryName (name : Name) : Prop where
  nonempty : name ≠ []
  notHere : name ≠ ['.']
  notUp : name ≠ ['.', '.']

/-- The name of an entry that is not too long for one. -/
structure ProperName (name : Name) : Prop extends EntryName name where
  short : byteLength name ≤ longestName

/-- Where a part of a path leads depends on the outlines of the place and of the entry. -/
theorem lead_eq (root : FileNode) (base : List Name) (part : Name) :
    lead root base part =
      match root.outlineAt base with
      | none => .error .notFound
      | some (.folder _) =>
        if part = [] ∨ part = ['.'] then .ok (.place base)
        else if part = ['.', '.'] then .ok (.place base.dropLast)
        else if longestName < byteLength part then .error .nameTooLong
        else match root.outlineAt (base ++ [part]) with
          | none => .error .notFound
          | some outline => .ok (outline.lead (base ++ [part]))
      | some _ => .error .notADirectory := by
  rw [lead]
  cases found : root.node? base with
  | none => simp only [outlineAt, found, Option.map_none]
  | some node =>
    cases node with
    | folder entries =>
      have entry := node?_snoc found part
      simp only [outlineAt, found, Option.map_some, outline, entry]
      congr 3
      cases entries.lookup part with
      | none => rfl
      | some child => cases child <;> rfl
    | file data => simp only [outlineAt, found, Option.map_some, outline]
    | link target => simp only [outlineAt, found, Option.map_some, outline]
    | device kind => simp only [outlineAt, found, Option.map_some, outline]

/-- A part leads from a folder to the folder itself, to the one above it, or to an entry. -/
theorem lead_eq_ok_iff {part : Name} {next : Lead} :
    lead root base part = .ok next ↔
      (∃ names, root.outlineAt base = some (.folder names)) ∧
        ((part = [] ∨ part = ['.']) ∧ next = .place base ∨
          part = ['.', '.'] ∧ next = .place base.dropLast ∨
          ProperName part ∧ ∃ outline, root.outlineAt (base ++ [part]) = some outline ∧
            next = outline.lead (base ++ [part])) := by
  rw [lead_eq]
  cases root.outlineAt base with
  | none => simp
  | some held =>
    cases held with
    | file data => simp
    | link target => simp
    | device kind => simp
    | folder names =>
      have folder : ∃ others, some (Outline.folder names) = some (.folder others) := ⟨names, rfl⟩
      dsimp only
      split
      case isTrue here =>
        constructor
        · rintro ⟨⟩
          exact ⟨folder, .inl ⟨here, rfl⟩⟩
        · rintro ⟨-, ⟨-, rfl⟩ | ⟨rfl, -⟩ | ⟨proper, -⟩⟩
          · rfl
          · exact absurd here (by decide)
          · exact absurd here (not_or.2 ⟨proper.nonempty, proper.notHere⟩)
      case isFalse notHere =>
        split
        case isTrue up =>
          constructor
          · rintro ⟨⟩
            exact ⟨folder, .inr (.inl ⟨up, rfl⟩)⟩
          · rintro ⟨-, ⟨here, -⟩ | ⟨-, rfl⟩ | ⟨proper, -⟩⟩
            · exact absurd here notHere
            · rfl
            · exact absurd up proper.notUp
        case isFalse notUp =>
          split
          case isTrue long =>
            constructor
            · rintro ⟨⟩
            · rintro ⟨-, ⟨here, -⟩ | ⟨up, -⟩ | ⟨proper, -⟩⟩
              · exact absurd here notHere
              · exact absurd up notUp
              · exact absurd proper.short (Nat.not_le.2 long)
          case isFalse short =>
            have proper : ProperName part :=
              ⟨⟨fun empty => notHere (.inl empty), fun dot => notHere (.inr dot), notUp⟩,
                Nat.not_lt.1 short⟩
            cases root.outlineAt (base ++ [part]) with
            | none => simp [notHere, notUp]
            | some outline =>
              constructor
              · rintro ⟨⟩
                exact ⟨folder, .inr (.inr ⟨proper, outline, rfl, rfl⟩)⟩
              · rintro ⟨-, ⟨here, -⟩ | ⟨up, -⟩ | ⟨-, other, same, rfl⟩⟩
                · exact absurd here notHere
                · exact absurd up notUp
                · cases same
                  rfl

/-- The name of an entry leads nowhere where there is none. -/
theorem lead_ne_ok_of_free {part : Name} (entry : EntryName part)
    (free : root.outlineAt (base ++ [part]) = none) (next : Lead) :
    lead root base part ≠ .ok next := by
  intro leads
  rcases (lead_eq_ok_iff.1 leads).2 with ⟨here, -⟩ | ⟨up, -⟩ | ⟨-, held, found, -⟩
  · exact here.elim entry.nonempty entry.notHere
  · exact entry.notUp up
  · rw [free] at found
    cases found

/-- What an existing place does not have under a name may be put there. -/
theorem lead_eq_notFound {part : Name} (there : root.outlineAt base ≠ none)
    (missing : lead root base part = .error .notFound) :
    (∃ names, root.outlineAt base = some (.folder names)) ∧ ProperName part ∧
      root.outlineAt (base ++ [part]) = none := by
  rw [lead_eq] at missing
  split at missing
  case h_1 nothing => exact absurd nothing there
  case h_3 => cases missing
  case h_2 names folder =>
    split at missing
    · cases missing
    case isFalse here =>
      split at missing
      · cases missing
      case isFalse up =>
        split at missing
        · cases missing
        case isFalse long =>
          split at missing
          case h_2 => cases missing
          case h_1 none =>
            exact ⟨⟨names, folder⟩, ⟨⟨fun empty => here (.inl empty), fun dot => here (.inr dot),
              up⟩, Nat.not_lt.1 long⟩, none⟩

/-- What is above a folder is a folder. -/
theorem isFolder_dropLast {names : List Name}
    (folder : root.outlineAt base = some (.folder names)) :
    ∃ others, root.outlineAt base.dropLast = some (.folder others) := by
  rcases List.eq_nil_or_concat base with rfl | ⟨above, name, rfl⟩
  · exact ⟨names, folder⟩
  · rw [List.concat_eq_append] at folder ⊢
    rw [List.dropLast_concat]
    exact isFolder_of_snoc (by rw [folder]; exact Option.some_ne_none _)

/-- A part leads to a folder, or to a file or a device in the folder where it starts. -/
theorem outlineAt_of_lead {part : Name} {next : List Name}
    (leads : lead root base part = .ok (.place next)) :
    (∃ names, root.outlineAt next = some (.folder names)) ∨
      next = base ++ [part] ∧ ProperName part ∧
        (∃ names, root.outlineAt base = some (.folder names)) ∧
        ((∃ data, root.outlineAt next = some (.file data)) ∨
          ∃ kind, root.outlineAt next = some (.device kind)) := by
  rcases lead_eq_ok_iff.1 leads with ⟨⟨names, folder⟩, here | up | ⟨proper, outline, entry, same⟩⟩
  · cases here.2
    exact .inl ⟨names, folder⟩
  · cases up.2
    exact .inl (isFolder_dropLast folder)
  · cases outline with
    | link target => cases same
    | folder others =>
      cases same
      exact .inl ⟨others, entry⟩
    | file data =>
      cases same
      exact .inr ⟨rfl, proper, ⟨names, folder⟩, .inl ⟨data, entry⟩⟩
    | device kind =>
      cases same
      exact .inr ⟨rfl, proper, ⟨names, folder⟩, .inr ⟨kind, entry⟩⟩

/-- Following a path ends where there is something. -/
theorem outlineAt_ne_none_of_lead {part : Name} {next : List Name}
    (leads : lead root base part = .ok (.place next)) : root.outlineAt next ≠ none := by
  rcases outlineAt_of_lead leads with ⟨names, folder⟩ | ⟨-, -, -, ⟨data, file⟩ | ⟨kind, device⟩⟩
  · exact ne_of_eq_of_ne folder (Option.some_ne_none _)
  · exact ne_of_eq_of_ne file (Option.some_ne_none _)
  · exact ne_of_eq_of_ne device (Option.some_ne_none _)

theorem outlineAt_startOf (there : root.outlineAt base ≠ none) (path : Path) :
    root.outlineAt (startOf base path) ≠ none := by
  rw [startOf]
  split
  · simp [outlineAt, node?]
  · exact there

/-! ## All parts of a path -/

/-- From a place some parts of a path lead to another one, through a number of links. -/
inductive Reaches (root : FileNode) : (links : Nat) → (base parts place : List Name) → Prop
  | here {base : List Name} : Reaches root 0 base [] base
  | step {links : Nat} {base next rest place : List Name} {part : Name} :
      lead root base part = .ok (.place next) → Reaches root links next rest place →
        Reaches root links base (part :: rest) place
  | link {links : Nat} {base rest place : List Name} {part : Name} {target : Path} :
      lead root base part = .ok (.link target) →
        Reaches root links (startOf base target) (parts target ++ rest) place →
        Reaches root (links + 1) base (part :: rest) place

variable {links : Nat} {parts first second : List Name}

private theorem reaches_of_walk {follow : List Name → List Name → Except IoCause (List Name)}
    {most : Nat}
    (linked : ∀ base parts, follow base parts = .ok place →
      ∃ links, links + 1 ≤ most ∧ Reaches root links base parts place)
    (walked : walk follow root base parts = .ok place) :
    ∃ links ≤ most, Reaches root links base parts place := by
  induction parts generalizing base with
  | nil =>
    cases walked
    exact ⟨0, Nat.zero_le _, .here⟩
  | cons part rest ih =>
    rw [walk] at walked
    split at walked
    case h_1 => cases walked
    case h_2 next leads =>
      rcases ih walked with ⟨links, few, reaches⟩
      exact ⟨links, few, .step leads reaches⟩
    case h_3 target leads =>
      rcases linked _ _ walked with ⟨links, few, reaches⟩
      exact ⟨links + 1, few, .link leads reaches⟩

/-- Resolving a path is reaching a place through so many links at most. -/
theorem resolve_eq_ok_iff {most : Nat} :
    resolve root most base parts = .ok place ↔
      ∃ links ≤ most, Reaches root links base parts place := by
  constructor
  · intro resolved
    induction most generalizing base parts with
    | zero =>
      rw [resolve] at resolved
      exact reaches_of_walk (fun _ _ failed => by cases failed) resolved
    | succ most ih =>
      rw [resolve] at resolved
      refine reaches_of_walk (fun base parts followed => ?_) resolved
      rcases ih followed with ⟨links, few, reaches⟩
      exact ⟨links, Nat.succ_le_succ few, reaches⟩
  · rintro ⟨links, few, reaches⟩
    induction reaches generalizing most with
    | here => cases most <;> rfl
    | step leads reaches ih =>
      have later := ih few
      cases most with
      | zero => rw [resolve, walk, leads]; exact later
      | succ most => rw [resolve, walk, leads]; exact later
    | link leads reaches ih =>
      cases most with
      | zero => exact absurd few (Nat.not_succ_le_zero _)
      | succ most =>
        rw [resolve, walk, leads]
        exact ih (Nat.le_of_succ_le_succ few)

namespace Reaches

/-- There is only one place that a path leads to. -/
theorem unique {other : Nat} {elsewhere : List Name} (reaches : Reaches root links base parts place)
    (again : Reaches root other base parts elsewhere) : place = elsewhere := by
  induction reaches generalizing other with
  | here =>
    cases again
    rfl
  | step leads reaches ih =>
    cases again with
    | step same later =>
      cases leads.symm.trans same
      exact ih later
    | link same later => cases leads.symm.trans same
  | link leads reaches ih =>
    cases again with
    | step same later => cases leads.symm.trans same
    | link same later =>
      cases leads.symm.trans same
      exact ih later

theorem append {more : Nat} {next : List Name} (reaches : Reaches root links base first next)
    (later : Reaches root more next second place) :
    Reaches root (links + more) base (first ++ second) place := by
  induction reaches with
  | here => rwa [Nat.zero_add]
  | step leads reaches ih => exact .step leads (ih later)
  | link leads reaches ih =>
    have all := ih later
    rw [List.append_assoc] at all
    rw [Nat.add_right_comm]
    exact .link leads all

/-- Whoever reaches the end of a path was somewhere at each point of it. -/
theorem split (reaches : Reaches root links base (first ++ second) place) :
    ∃ before behind next, before + behind = links ∧ Reaches root before base first next ∧
      Reaches root behind next second place := by
  generalize whole : first ++ second = parts at reaches
  induction reaches generalizing first with
  | here =>
    rcases List.append_eq_nil_iff.1 whole with ⟨rfl, rfl⟩
    exact ⟨0, 0, _, rfl, .here, .here⟩
  | @step links base next rest place part leads reaches ih =>
    cases first with
    | nil =>
      subst whole
      exact ⟨0, links, base, Nat.zero_add _, .here, .step leads reaches⟩
    | cons head first =>
      cases whole
      rcases ih rfl with ⟨before, behind, point, total, start, rest⟩
      exact ⟨before, behind, point, total, .step leads start, rest⟩
  | @link links base rest place part target leads reaches ih =>
    cases first with
    | nil =>
      subst whole
      exact ⟨0, links + 1, base, Nat.zero_add _, .here, .link leads reaches⟩
    | cons head first =>
      cases whole
      rcases ih (List.append_assoc _ _ _) with ⟨before, behind, point, total, start, rest⟩
      exact ⟨before + 1, behind, point, by omega, .link leads start, rest⟩

/-- With a slash behind it a path leads where it leads without. -/
theorem of_slash (reaches : Reaches root links base (parts ++ [[]]) place) :
    ∃ fewer ≤ links, Reaches root fewer base parts place := by
  rcases reaches.split with ⟨fewer, more, point, total, first, last⟩
  refine ⟨fewer, by omega, ?_⟩
  cases last with
  | step leads rest =>
    cases rest
    rcases (lead_eq_ok_iff.1 leads).2 with ⟨-, same⟩ | ⟨up, -⟩ | ⟨proper, -⟩
    · cases same
      exact first
    · cases up
    · exact absurd rfl proper.nonempty
  | link leads =>
    rcases (lead_eq_ok_iff.1 leads).2 with ⟨-, same⟩ | ⟨up, -⟩ | ⟨proper, -⟩
    · cases same
    · cases up
    · exact absurd rfl proper.nonempty

/-- Whoever reaches something has started at something. -/
theorem outlineAt_start (reaches : Reaches root links base parts place)
    (there : root.outlineAt place ≠ none) : root.outlineAt base ≠ none := by
  have folder : ∀ {part : Name} {next : Lead}, lead root base part = .ok next →
      root.outlineAt base ≠ none := by
    intro part next leads
    rcases (lead_eq_ok_iff.1 leads).1 with ⟨names, folder⟩
    rw [folder]
    exact Option.some_ne_none _
  cases reaches with
  | here => exact there
  | step leads => exact folder leads
  | link leads => exact folder leads

end Reaches

/-! ## Places to write to -/

/-- From a place some parts of a path lead to where a file is to be written, through a number of
links. -/
inductive Targets (root : FileNode) : (links : Nat) → (base parts place : List Name) → Prop
  | missing {base : List Name} {last : Name} :
      lead root base last = .error .notFound → Targets root 0 base [last] (base ++ [last])
  | held {base place : List Name} {last : Name} {outline : Outline} :
      lead root base last = .ok (.place place) → root.outlineAt place = some outline →
        outline.isFolder = false → Targets root 0 base [last] place
  | step {links : Nat} {base next rest place : List Name} {part : Name} :
      lead root base part = .ok (.place next) → Targets root links next rest place →
        Targets root links base (part :: rest) place
  | link {links : Nat} {base rest place : List Name} {part : Name} {target : Path} :
      lead root base part = .ok (.link target) →
        Targets root links (startOf base target) (FileTree.parts target ++ rest) place →
        Targets root (links + 1) base (part :: rest) place

private theorem targets_of_lastToTarget
    {follow : List Name → List Name → Except IoCause (List Name)} {most : Nat} {last : Name}
    (linked : ∀ base parts, follow base parts = .ok place →
      ∃ links, links + 1 ≤ most ∧ Targets root links base parts place)
    (walked : lastToTarget follow root base last = .ok place) :
    ∃ links ≤ most, Targets root links base [last] place := by
  rw [lastToTarget] at walked
  split at walked
  case h_1 missing =>
    cases walked
    exact ⟨0, Nat.zero_le _, .missing missing⟩
  case h_2 => cases walked
  case h_3 target leads =>
    rcases linked _ _ walked with ⟨links, few, targets⟩
    exact ⟨links + 1, few, .link leads (by rwa [List.append_nil])⟩
  case h_4 names leads =>
    -- What is there is no folder.
    have there := outlineAt_ne_none_of_lead leads
    split at walked
    case h_1 => cases walked
    case h_2 noFolder =>
      cases walked
      cases found : root.node? place with
      | none => simp [outlineAt, found] at there
      | some node =>
        refine ⟨0, Nat.zero_le _, .held leads (by rw [outlineAt, found, Option.map_some]) ?_⟩
        cases node with
        | folder entries => exact absurd found (noFolder entries)
        | file data => rfl
        | link target => rfl
        | device kind => rfl

private theorem targets_of_walkToTarget
    {follow : List Name → List Name → Except IoCause (List Name)} {most : Nat}
    (linked : ∀ base parts, follow base parts = .ok place →
      ∃ links, links + 1 ≤ most ∧ Targets root links base parts place)
    (walked : walkToTarget follow root base parts = .ok place) :
    ∃ links ≤ most, Targets root links base parts place := by
  induction parts generalizing base with
  | nil =>
    rw [walkToTarget] at walked
    cases walked
  | cons part rest ih =>
    cases rest with
    | nil =>
      rw [walkToTarget] at walked
      exact targets_of_lastToTarget linked walked
    | cons next rest =>
      rw [walkToTarget] at walked
      split at walked
      case isTrue => split at walked <;> cases walked
      case isFalse =>
        split at walked
        case h_1 => cases walked
        case h_2 names leads =>
          rcases ih walked with ⟨links, few, targets⟩
          exact ⟨links, few, .step leads targets⟩
        case h_3 target leads =>
          rcases linked _ _ walked with ⟨links, few, targets⟩
          exact ⟨links + 1, few, .link leads targets⟩

theorem targets_of_target {most : Nat} (found : target root most base parts = .ok place) :
    ∃ links ≤ most, Targets root links base parts place := by
  induction most generalizing base parts with
  | zero =>
    rw [target] at found
    exact targets_of_walkToTarget (fun _ _ failed => by cases failed) found
  | succ most ih =>
    rw [target] at found
    refine targets_of_walkToTarget (fun base parts followed => ?_) found
    rcases ih followed with ⟨links, few, targets⟩
    exact ⟨links, Nat.succ_le_succ few, targets⟩

/-- Whoever finds a place to write to was in a folder before the last part. -/
theorem Targets.split {last : Name} (targets : Targets root links base (parts ++ [last]) place) :
    ∃ before behind next, before + behind = links ∧ Reaches root before base parts next ∧
      Targets root behind next [last] place := by
  generalize whole : parts ++ [last] = all at targets
  induction targets generalizing parts with
  | missing missing =>
    obtain ⟨rfl, same⟩ := List.append_inj' (whole.trans (List.nil_append _).symm) rfl
    cases same
    exact ⟨0, 0, _, rfl, .here, .missing missing⟩
  | held leads there noFolder =>
    obtain ⟨rfl, same⟩ := List.append_inj' (whole.trans (List.nil_append _).symm) rfl
    cases same
    exact ⟨0, 0, _, rfl, .here, .held leads there noFolder⟩
  | @step links base next rest place part leads targets ih =>
    cases parts with
    | nil =>
      cases whole
      exact ⟨0, links, base, Nat.zero_add _, .here, .step leads targets⟩
    | cons first parts =>
      cases whole
      rcases ih rfl with ⟨before, behind, point, total, start, rest⟩
      exact ⟨before, behind, point, total, .step leads start, rest⟩
  | @link links base rest place part target leads targets ih =>
    cases parts with
    | nil =>
      cases whole
      exact ⟨0, links + 1, base, Nat.zero_add _, .here, .link leads targets⟩
    | cons first parts =>
      cases whole
      rcases ih (List.append_assoc _ _ _) with ⟨before, behind, point, total, start, rest⟩
      exact ⟨before + 1, behind, point, by omega, .link leads start, rest⟩

/-- A proper name under which nothing stands is where to write to. -/
theorem Targets.eq_of_free {last : Name} (targets : Targets root links base [last] place)
    (entry : EntryName last) (free : root.outlineAt (base ++ [last]) = none) :
    place = base ++ [last] := by
  have nowhere := lead_ne_ok_of_free entry free
  cases targets with
  | missing => rfl
  | held leads => exact absurd leads (nowhere _)
  | step leads => exact absurd leads (nowhere _)
  | link leads => exact absurd leads (nowhere _)

end FileTree

end GramCensus
