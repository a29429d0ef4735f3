import Qigong.Conf.CollectionsConf
import Qigong.Measure.Filelen
import Qigong.Measure.Files
import Qigong.Measure.Servers

/-!
# `MeasurePoint` (qimeasure.h:46–110, qimeasure.cpp:1114–1137, qicollect.cpp:413–441)

The kinds of measure points that `init_mmpcreators` registers, what each of them measures,
and the data sources that the collector defines for it. The program that measures and the
one that defines each make a point of their own.
-/

namespace Qigong.Measure

variable (R : Readers) (env : Outside)

/-- The kinds of measure points, in the order of `init_mmpcreators`. -/
inductive Kind where
  | diskstats
  | netstats
  | filelen
  | matchflen
  | loadavg
  | conncount
  | meminfo
  | freespace
  | memcached
  | mysqlgstatus
  | filevalue
deriving DecidableEq, Repr

/-- `init_mmpcreators` (qimeasure.cpp:1118–1136). -/
def init_mmpcreators : List (Bytes × Kind) :=
  [(str "diskstats", .diskstats),
   (str "netstats", .netstats),
   (str "filelen", .filelen),
   (str "matchflen", .matchflen),
   (str "loadavg", .loadavg),
   (str "conncount", .conncount),
   (str "meminfo", .meminfo),
   (str "freespace", .freespace),
   (str "memcached", .memcached),
   (str "mysqlgstatus", .mysqlgstatus),
   (str "filevalue", .filevalue)]

/-- `mmpcreators`, by the name of the function. -/
def mmpcreators (fn : Bytes) : Option Kind := init_mmpcreators.lookup fn

/-- A `MeasurePoint`. -/
inductive MeasurePoint where
  | diskstats (m : MPdiskstats)
  | netstats (m : MPnetstats)
  | filelen (m : MPfilelen)
  | matchflen (m : MPlastmatchfilelen)
  | loadavg
  | conncount
  | meminfo (m : MPmeminfo)
  | freespace (m : MPfreespace)
  | memcached (m : MMemcached)
  | mysqlgstatus (m : MMySQLGStatus)
  | filevalue (m : MPfilevalue)

/-- The functions of `mmpcreators`. -/
def Kind.creator (k : Kind) (param : Bytes) : MeasurePoint :=
  match k with
  | .diskstats => .diskstats (.make param)
  | .netstats => .netstats (.make param)
  | .filelen => .filelen (.make env param 0)
  | .matchflen => .matchflen (.make env param)
  | .loadavg => .loadavg
  | .conncount => .conncount
  | .meminfo => .meminfo .make
  | .freespace => .freespace { fname := param }
  | .memcached => .memcached (.make param)
  | .mysqlgstatus => .mysqlgstatus (.make param)
  | .filevalue => .filevalue { filemeasure := param }

namespace MeasurePoint

/-- `measure`: what `result` holds before and after, and what is returned. -/
def measure (mp : MeasurePoint) (result : Bytes) : Except Exn (MeasurePoint × Bytes × Bool) :=
  match mp with
  | .diskstats m => (m.measure R env result).map fun r => (mp, r)
  | .netstats m => (m.measure R env result).map fun r => (mp, r)
  | .filelen m => let r := m.measure env; .ok (.filelen r.1, r.2)
  | .matchflen m => let r := m.measure env; .ok (.matchflen r.1, r.2)
  | .loadavg => .ok (mp, MPloadavg.measure R env)
  | .conncount => .ok (mp, MPconncount.measure R env)
  | .meminfo m => let r := m.measure R env; .ok (.meminfo r.1, r.2)
  | .freespace m => .ok (mp, m.measure env)
  | .memcached m => .ok (mp, m.measure env result)
  | .mysqlgstatus m => let r := m.measure env result; .ok (.mysqlgstatus r.1, r.2)
  | .filevalue m => .ok (mp, m.measure R env)

def get_nbpoints (mp : MeasurePoint) : Nat :=
  match mp with
  | .meminfo _ => MPmeminfo.get_nbpoints
  | .memcached m => m.get_nbpoints
  | .mysqlgstatus m => m.get_nbpoints
  | .diskstats _ | .netstats _ | .filelen _ | .matchflen _ | .loadavg | .conncount | .freespace _
  | .filevalue _ => 1

/-! ## The data sources -/

def get_source_type (mp : MeasurePoint) : Bytes :=
  match mp with
  | .diskstats _ | .netstats _ | .filelen _ | .matchflen _ => str "DERIVE"
  | .loadavg | .conncount | .freespace _ | .filevalue _ => str "GAUGE"
  | .meminfo _ | .memcached _ | .mysqlgstatus _ => str "GAUGE"

def get_min (mp : MeasurePoint) : Bytes :=
  match mp with
  | .filevalue _ => str "U"
  | .diskstats _ | .netstats _ | .filelen _ | .matchflen _ | .loadavg | .conncount | .meminfo _
  | .freespace _ | .memcached _ | .mysqlgstatus _ => str "0"

def get_max (_ : MeasurePoint) : Bytes := str "U"

/-- The suffix of the tag of one of several values. -/
def get_tagsub (mp : MeasurePoint) (i : Int) : Bytes :=
  match mp with
  | .meminfo _ => MPmeminfo.get_tagsub i
  | .memcached m => m.get_tagsub i
  | .mysqlgstatus m => m.get_tagsub i
  | .diskstats _ | .netstats _ | .filelen _ | .matchflen _ | .loadavg | .conncount | .freespace _
  | .filevalue _ => []

/-- `get_source_type (int)`. -/
def get_source_typeAt (mp : MeasurePoint) (i : Int) : Bytes :=
  match mp with
  | .memcached m => m.get_source_typeAt i
  | .mysqlgstatus m => m.get_source_typeAt i
  | .meminfo _ | .diskstats _ | .netstats _ | .filelen _ | .matchflen _ | .loadavg | .conncount
  | .freespace _ | .filevalue _ => str "GAUGE"

/-- `get_min (int)` and `get_max (int)`. -/
def get_minAt (_ : MeasurePoint) (_ : Int) : Bytes := str "0"

def get_maxAt (_ : MeasurePoint) (_ : Int) : Bytes := str "U"

/-- The definitions of the data sources of a point, one for each value. -/
def definitions (pmp : MeasurePoint) (tagname : Bytes) (heartbeat : Int) : List Bytes :=
  if pmp.get_nbpoints = 1 then
    [Lib.joined 58 [str "DS", tagname, pmp.get_source_type, decimal heartbeat, pmp.get_min,
      pmp.get_max]]
  else
    (List.range pmp.get_nbpoints).map fun (i : Nat) =>
      Lib.joined 58 [str "DS", tagname ++ str "_" ++ pmp.get_tagsub i, pmp.get_source_typeAt i,
        decimal heartbeat, pmp.get_minAt i, pmp.get_maxAt i]

theorem length_definitions (pmp : MeasurePoint) (tagname : Bytes) (heartbeat : Int) :
    (pmp.definitions tagname heartbeat).length = pmp.get_nbpoints := by
  unfold definitions
  split
  case isTrue h => exact h.symm
  case isFalse => rw [List.length_map, List.length_range]

theorem startsWith_definitions (pmp : MeasurePoint) (tagname : Bytes) (heartbeat : Int) :
    ∀ d ∈ pmp.definitions tagname heartbeat, startsWith (str "DS:") d = true := by
  have hjoined : ∀ (f : Bytes) (fs : List Bytes),
      startsWith (str "DS:") (Lib.joined 58 (str "DS" :: f :: fs)) = true := by
    intro f fs
    rw [startsWith_iff, Lib.joined_cons _ (List.cons_ne_nil _ _), List.append_cons]
    exact List.prefix_append _ _
  intro d hd
  unfold definitions at hd
  split at hd
  · obtain rfl := List.mem_singleton.mp hd
    exact hjoined _ _
  · obtain ⟨i, -, rfl⟩ := List.mem_map.mp hd
    exact hjoined _ _

end MeasurePoint

/-- `TaggedMeasuredPoint::get_DSdef`: the definitions, with an `eos` between each two. -/
def get_DSdef (t : Conf.TaggedMeasuredPoint) (heartbeat : Int) : Option Bytes :=
  (mmpcreators t.fn).map fun k =>
    eos.intercalate ((k.creator env t.params).definitions t.tagname heartbeat)

end Qigong.Measure
