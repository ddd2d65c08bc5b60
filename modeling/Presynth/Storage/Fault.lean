/-!
# Faults of a file store

Why a file cannot be read or written. All faults but the last are found before a file is opened, and
then it is left alone.
-/

namespace Presynth

/-- A fault of a file operation. -/
inductive Fault where
  /-- There is no such file or directory. -/
  | notFound
  /-- A text file does not hold valid UTF-8. -/
  | notText
  /-- A directory stands where a file is read or written. -/
  | isDirectory
  /-- A file stands where a directory is needed. -/
  | notDirectory
  /-- A file stands where a directory is to be made. -/
  | alreadyExists
  /-- A name or a whole path is longer than a file store takes. -/
  | nameTooLong
  /-- A path holds the null character, which no name may hold. -/
  | nullCharacter
  /-- A file was opened, but the store took only a beginning of what was to be written. -/
  | storageFull
  deriving DecidableEq, Repr

end Presynth
