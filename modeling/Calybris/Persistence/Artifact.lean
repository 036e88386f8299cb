import Calybris.Budget.Restore
import Calybris.Wal.Append

/-!
# Files of a checkpoint directory

A value is saved as JSON under a limit, into a temporary file that then replaces the one
of its name, so that a file has either its old content or its new one. The JSON formats
are parameters. The directory is a map from names to contents.
-/

namespace Calybris.Persistence

open Text Wal Budget

def maxPersistenceArtifactBytes : Nat := 16 * 1024 * 1024

/-- Why saving or loading failed. The errors of input and output are told apart by their
messages. -/
inductive PersistenceError (Tenant : Type*) where
  | io
  | notFound
  | artifactTooLarge
  | json
  | restore (error : RestoreError Tenant)
  | allocatorExhausted
  | wal (error : WalError)
  | unknownManifestSchema (schema : String)
  | unsafeFilename
  | manifestMismatch
  | watermarkAhead (watermark : Nat) (head : UInt64)
  deriving DecidableEq

/-! ### Formats -/

structure Codec (α : Type*) where
  toWriterPretty : α → List Bytes
  fromSlice : Bytes → Option α

namespace Codec

variable {α Tenant : Type*} (codec : Codec α)

def text (value : α) : Bytes := (codec.toWriterPretty value).flatten

def Lawful : Prop :=
  ∀ value, (codec.text value).length ≤ maxPersistenceArtifactBytes →
    codec.fromSlice (codec.text value) = some value

def write (value : α) : Except (PersistenceError Tenant) Bytes :=
  let writer := (LimitedWriter.new maxPersistenceArtifactBytes).writeChunks
    (codec.toWriterPretty value)
  if writer.exceeded then .error .artifactTooLarge else .ok writer.inner

variable {codec}

theorem write_eq_ok {value : α} {bytes : Bytes}
    (h : codec.write value = (.ok bytes : Except (PersistenceError Tenant) Bytes)) :
    bytes = codec.text value ∧ bytes.length ≤ maxPersistenceArtifactBytes := by
  simp only [write] at h
  split at h
  · cases h
  · next hexceeded =>
    cases h
    exact LimitedWriter.inner_writeChunks (Nat.zero_le _) (by simpa using hexceeded)

end Codec

/-! ### The directory -/

abbrev Directory := List Char → Option Bytes

/-- How the file system lets a save end: the file is in place, or the save failed before
or after it was put there. -/
inductive Saving where
  | done
  | refused
  | unsynced
  deriving DecidableEq

structure Saved (Tenant : Type*) where
  result : Except (PersistenceError Tenant) Unit
  placed : Bool
  directory : Directory

namespace Directory

variable {α Tenant : Type*} (codec : Codec α) (directory : Directory) (name : List Char)

def put (bytes : Bytes) : Directory := Function.update directory name (some bytes)

def saveJsonAtomic (value : α) (saving : Saving) : Saved Tenant :=
  match codec.write value with
  | .error error => ⟨.error error, false, directory⟩
  | .ok bytes =>
    match saving with
    | .done => ⟨.ok (), true, directory.put name bytes⟩
    | .refused => ⟨.error .io, false, directory⟩
    | .unsynced => ⟨.error .io, true, directory.put name bytes⟩

def loadJsonBounded : Except (PersistenceError Tenant) α :=
  match directory name with
  | none => .error .notFound
  | some bytes =>
    if bytes.length > maxPersistenceArtifactBytes then .error .artifactTooLarge
    else
      match codec.fromSlice bytes with
      | none => .error .json
      | some value => .ok value

def Holds (value : α) : Prop :=
  directory name = some (codec.text value) ∧
    (codec.text value).length ≤ maxPersistenceArtifactBytes

variable {codec directory name} {value : α} {saving : Saving}

theorem loadJsonBounded_of_holds (hcodec : codec.Lawful) (h : directory.Holds codec name value) :
    directory.loadJsonBounded codec name =
      (.ok value : Except (PersistenceError Tenant) α) := by
  simp only [loadJsonBounded, h.1, if_neg (not_lt.2 h.2), hcodec value h.2]

theorem saveJsonAtomic_cases {saved : Saved Tenant}
    (h : directory.saveJsonAtomic codec name value saving = saved) :
    (saved.placed = false ∧ saved.result ≠ .ok () ∧ saved.directory = directory) ∨
      (saved.placed = true ∧ saved.directory.Holds codec name value ∧
        ∀ other, other ≠ name → saved.directory other = directory other) := by
  subst h
  simp only [saveJsonAtomic]
  cases hwrite : (codec.write value : Except (PersistenceError Tenant) Bytes) with
  | error error => exact .inl ⟨rfl, nofun, rfl⟩
  | ok bytes =>
    obtain ⟨rfl, hlength⟩ := Codec.write_eq_ok hwrite
    have hholds : (directory.put name (codec.text value)).Holds codec name value :=
      ⟨Function.update_self .., hlength⟩
    have hothers : ∀ other, other ≠ name →
        directory.put name (codec.text value) other = directory other :=
      fun other hother => Function.update_of_ne hother ..
    cases saving with
    | refused => exact .inl ⟨rfl, nofun, rfl⟩
    | _ => exact .inr ⟨rfl, hholds, hothers⟩

end Directory

/-! ### File names -/

inductive Component where
  | rootDir
  | curDir
  | parentDir
  | normal (name : List Char)
  deriving DecidableEq

def component : List Char → Option Component
  | [] | ['.'] => none
  | ['.', '.'] => some .parentDir
  | name => some (.normal name)

/-- The components of a path: a dot counts only at its beginning. -/
def components (path : List Char) : List Component :=
  match path.splitOn '/' with
  | [] => []
  | first :: rest =>
    (if first = [] ∧ rest ≠ [] then [.rootDir]
      else if first = ['.'] then [.curDir]
      else (component first).toList) ++ rest.filterMap component

def validateGenerationFilename {Tenant : Type*} (filename : List Char) :
    Except (PersistenceError Tenant) Unit :=
  match components filename with
  | [.normal _] => .ok ()
  | _ => .error .unsafeFilename

def manifestFile : List Char := "checkpoint-manifest.json".toList

def generationFile (stem : String) (version : Nat) (sequence : UInt64) : List Char :=
  stem.toList ++ ('-' :: 'v' :: (decimal version ++
    ("-wal-".toList ++ (decimal sequence.toNat ++ ".json".toList))))

def snapshotFile (version : Nat) (sequence : UInt64) : List Char :=
  generationFile "snapshot" version sequence

def walAnchorFile (version : Nat) (sequence : UInt64) : List Char :=
  generationFile "wal-anchor" version sequence

theorem decimal_injective : Function.Injective decimal := by
  intro a b h
  have h' := congrArg (fun text => Nat.ofDigitChars 10 text 0) h
  simpa only [decimal, Nat.ofDigitChars_ten_toDigits] using h'

theorem notMem_decimal {c : Char} (h : c.isDigit = false) (n : Nat) : c ∉ decimal n := fun hc =>
  absurd (isDigit_of_mem_decimal hc) (by simp [h])

theorem generationFile_inj {stem : String} {version version' : Nat} {sequence sequence' : UInt64}
    (h : generationFile stem version sequence = generationFile stem version' sequence') :
    version = version' := by
  have htail := (List.cons.inj (List.cons.inj (List.append_cancel_left h)).2).2
  exact decimal_injective
    (append_cons_inj (notMem_decimal (by decide) _) (notMem_decimal (by decide) _) htail).1

theorem head?_snapshotFile (version : Nat) (sequence : UInt64) :
    (snapshotFile version sequence).head? = some 's' := rfl

theorem head?_walAnchorFile (version : Nat) (sequence : UInt64) :
    (walAnchorFile version sequence).head? = some 'w' := rfl

theorem snapshotFile_ne_walAnchorFile (version version' : Nat) (sequence sequence' : UInt64) :
    snapshotFile version sequence ≠ walAnchorFile version' sequence' := by
  intro h
  have hhead := congrArg List.head? h
  rw [head?_snapshotFile, head?_walAnchorFile] at hhead
  exact absurd hhead (by decide)

theorem snapshotFile_ne_manifestFile (version : Nat) (sequence : UInt64) :
    snapshotFile version sequence ≠ manifestFile := by
  intro h
  have hhead := congrArg List.head? h
  rw [head?_snapshotFile] at hhead
  exact absurd hhead (by decide)

theorem walAnchorFile_ne_manifestFile (version : Nat) (sequence : UInt64) :
    walAnchorFile version sequence ≠ manifestFile := by
  intro h
  have hhead := congrArg List.head? h
  rw [head?_walAnchorFile] at hhead
  exact absurd hhead (by decide)

theorem component_of_two_lt {name : List Char} (h : 2 < name.length) :
    component name = some (.normal name) := by
  unfold component
  split <;> simp_all

theorem components_of_notMem {name : List Char} (hslash : '/' ∉ name) (h : 2 < name.length) :
    components name = [.normal name] := by
  have hfirst : name ≠ ['.'] := by
    rintro rfl
    exact absurd h (by decide)
  rw [components, List.splitOn_eq_singleton hslash]
  simp [hfirst, component_of_two_lt h]

theorem validateGenerationFilename_generationFile {Tenant : Type*} {stem : String}
    (hstem : '/' ∉ stem.toList) (version : Nat) (sequence : UInt64) :
    validateGenerationFilename (generationFile stem version sequence) =
      (.ok () : Except (PersistenceError Tenant) Unit) := by
  have hslash : '/' ∉ generationFile stem version sequence := by
    have hversion := notMem_decimal (c := '/') (by decide) version
    have hsequence := notMem_decimal (c := '/') (by decide) sequence.toNat
    simp [generationFile, hstem, hversion, hsequence]
  have hlength : 2 < (generationFile stem version sequence).length := by
    simp [generationFile]
    omega
  rw [validateGenerationFilename, components_of_notMem hslash hlength]

end Calybris.Persistence
