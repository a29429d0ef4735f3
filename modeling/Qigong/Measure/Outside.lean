import Qigong.Qiconn

/-!
# What measure points are given

A call of `measure` reads files, asks the system for file systems and directories, or asks
a server: what it finds there is one `Outside`, and another call finds another.

Outside the repository, and so parameters (`Readers`): qiconn's scanners, and its
`getstring`, by what its successive calls read of a file.
-/

namespace Qigong.Measure

/-- qiconn's functions that measure points use. Of a file, `getstrings` gives what the
successive calls of `getstring` read: the strings behind which the stream is still good,
and the one behind which it is not. -/
structure Readers extends Scanners where
  seekspace : (s : Bytes) → (p : Nat) → Nat
  getstrings : (content : Bytes) → List Bytes × Bytes

/-- The device and the inode of a file. -/
structure FileId where
  st_dev : Nat
  st_ino : Nat
deriving DecidableEq, Repr

/-- What `lstat` tells of an entry of a directory. -/
structure DirStat where
  isReg : Bool
  st_mtime : Int

/-- The result of a query: the number of its columns, and of each row the first two. -/
structure MysqlRes where
  num_fields : Nat
  rows : List (Bytes × Bytes)

/-- What a call of `measure` finds outside. -/
structure Outside where
  /-- `time (NULL)`. -/
  now : Int
  /-- The content of a file, if it can be opened as a stream. -/
  file : Bytes → Option Bytes
  /-- `f_frsize` and `f_bavail` of the file system of a file. -/
  statvfs : Bytes → Option (Nat × Nat)
  /-- A file that `open` opens, and what `fstat` tells of it. -/
  opened : Bytes → Option (Option FileId)
  /-- What `newstat` holds behind `lstat`. -/
  lstat : Bytes → FileId
  /-- The entries of a directory, each with what `lstat` tells. -/
  readdir : Bytes → Option (List (Bytes × Option DirStat))
  /-- How many line ends a `LogCountConn` has read since the last call. -/
  newlines : Nat
  /-- What memcached tells by name, when it can be asked. -/
  memcached_stat : Option (Bytes → Option Bytes)
  /-- The results of `show slave status` and of `show global status`. -/
  slave_status : Option MysqlRes
  global_status : Option MysqlRes
  /-- The rows that `mysql_fetch_row` gives of no result, one after the other. -/
  rows_of_null : List (Bytes × Bytes)

/-- Of no result, `mysql_fetch_row` gives no row. -/
def Outside.FetchesNone (env : Outside) : Prop := env.rows_of_null = []

/-! ## Strings and numbers -/

/-- `atoi`: blanks, a sign and digits. A number that is no `long` is taken for the
nearest one, of which an `int` has the low bits. -/
def atoi (s : Bytes) : Int :=
  let number (t : Bytes) : Int := ofDecimal (t.takeWhile isDigit)
  let v : Int :=
    match s.dropWhile isSpace with
    | 45 :: t => max (-number t) (-2 ^ 63)
    | 43 :: t => min (number t) (2 ^ 63 - 1)
    | t => min (number t) (2 ^ 63 - 1)
  v.bmod (2 ^ 32)

/-- An `int` as a `size_t`. -/
def toSize (i : Int) : Nat := (i % 2 ^ 64).toNat

/-- `s.find (w)`. -/
def findWord (w s : Bytes) : Option Nat :=
  (List.range (s.length + 1)).find? fun p => w.isPrefixOf (s.drop p)

/-- `s.rfind (w)`. -/
def rfindWord (w s : Bytes) : Option Nat :=
  (List.range (s.length + 1)).reverse.find? fun p => w.isPrefixOf (s.drop p)

/-- `s.substr (p, s.find (' ', p) - p)`: what stands before the next space. -/
def wordAt (s : Bytes) (p : Nat) : Except Exn Bytes :=
  (substr s p).map fun t => t.takeWhile (· != 32)

/-- The value of a point that has none. -/
def unknown : Bytes := str "U"

/-! ## What is relied on -/

/-- What is relied on in qiconn's functions: they scan as documented, and what is read is
a `std::string`. -/
structure Readers.Described (R : Readers) (blank : UInt8 → Bool) : Prop where
  seekspace : ∀ s p, R.seekspace s p = seek blank s p
  getinteger : ∀ s p, (R.getinteger s p).2 = (scan blank isDigit s p).2
  space : blank 32 = true
  strings : ∀ content, ∀ s ∈ (R.getstrings content).1, s.length < npos

end Qigong.Measure
