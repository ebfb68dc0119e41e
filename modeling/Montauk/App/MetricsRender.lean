import Montauk.App.MetricsSink
import Montauk.Machine.Scan

/-!
# The renderers of a snapshot

`render_system` to `render_processes`, each as the walk it makes over the
Prometheus sink, and `render_snapshot`, which makes them all. A field that only
the other sink shows is not here.

Each renderer is covered by the families it names; they are apart if the rows
of its collections have different labels (`MetricsSnapshot.RowsApart`), which
is the only thing that depends on the snapshot.
-/

namespace Montauk.App

open Emit
open Scan (cstr)

/-! ## The snapshot -/

structure CpuSnapshot (D : Type) where
  usage_pct : D
  changepoint_score : D
  per_core_pct : List D
  model : List UInt8
  physical_cores : Int32
  logical_threads : Int32
  has_freq : Bool
  freq_avg_mhz : D
  pct_user : D
  pct_system : D
  pct_iowait : D
  pct_irq : D
  pct_steal : D
  ctxt_per_sec : D
  intr_per_sec : D

structure DomainL3 (D : Type) where
  domain_cpu : Int32
  accesses : UInt64
  misses : UInt64
  miss_pct : D

/-- `comm` is the array as it is held. -/
structure ProcCounters (D : Type) where
  pid : Int32
  comm : List UInt8
  ipc : D
  instructions_total : UInt64
  cycles_total : UInt64
  dtlb_load_misses_total : UInt64
  cache_misses_total : UInt64
  dtlb_misses_per_kilo_instr : D
  cache_misses_per_kilo_instr : D

structure PmuSnapshot (D : Type) where
  available : Bool
  l3_available : Bool
  l2_misses : UInt64
  dtlb_load_misses : UInt64
  instructions_total : UInt64
  cycles_total : UInt64
  context_switches_total : UInt64
  cpu_migrations_total : UInt64
  branch_misses_total : UInt64
  l2_misses_total : UInt64
  dtlb_load_misses_total : UInt64
  cache_misses_total : UInt64
  context_switches_per_sec : D
  cpu_migrations_per_sec : D
  branch_misses_per_sec : D
  ipc : D
  l2_miss_pct : D
  cycles_per_l2_miss : D
  per_cpu_ids : List Int32
  per_cpu_l2_misses : List UInt64
  per_cpu_l2_refs : List UInt64
  l3_per_cache_domain : List (DomainL3 D)
  per_process_available : Bool
  per_process_user_only : Bool
  per_process : List (ProcCounters D)
  instructions_per_sec : D
  l2_misses_per_sec : D

structure Memory (D : Type) where
  total_kb : UInt64
  used_kb : UInt64
  available_kb : UInt64
  cached_kb : UInt64
  buffers_kb : UInt64
  swap_total_kb : UInt64
  swap_used_kb : UInt64
  used_pct : D

structure GpuVramDevice (D : Type) where
  name : List UInt8
  total_mb : UInt64
  used_mb : UInt64
  has_temp_edge : Bool
  temp_edge_c : D
  has_temp_hotspot : Bool
  temp_hotspot_c : D
  has_temp_mem : Bool
  temp_mem_c : D
  has_fan : Bool
  fan_speed_pct : D

structure GpuVram (D : Type) where
  devices : List (GpuVramDevice D)
  total_mb : UInt64
  used_mb : UInt64
  used_pct : D
  name : List UInt8
  has_power : Bool
  power_draw_w : D
  has_power_limit : Bool
  power_limit_w : D
  has_util : Bool
  gpu_util_pct : D
  has_mem_util : Bool
  mem_util_pct : D
  has_encdec : Bool
  enc_util_pct : D
  dec_util_pct : D

structure CpuIdleState (D : Type) where
  name : List UInt8
  residency_pct : D

structure Thermal (D : Type) where
  has_temp : Bool
  cpu_max_c : D
  has_fan : Bool
  fan_rpm : D
  has_power : Bool
  power_watts : D
  has_energy : Bool
  energy_joules_total : D
  cstates : List (CpuIdleState D)

structure NetIf (D : Type) where
  name : List UInt8
  rx_bps : D
  tx_bps : D

structure NetSnapshot (D : Type) where
  interfaces : List (NetIf D)
  agg_rx_bps : D
  agg_tx_bps : D

structure DiskDev (D : Type) where
  name : List UInt8
  read_bps : D
  write_bps : D
  util_pct : D

structure DiskSnapshot (D : Type) where
  devices : List (DiskDev D)
  total_read_bps : D
  total_write_bps : D

structure FsMount (D : Type) where
  device : List UInt8
  mountpoint : List UInt8
  fstype : List UInt8
  total_bytes : UInt64
  used_bytes : UInt64
  avail_bytes : UInt64
  used_pct : D

structure ProcSample (D : Type) where
  pid : Int32
  rss_kb : UInt64
  cpu_pct : D
  has_gpu_util : Bool
  gpu_util_pct : D
  has_gpu_mem : Bool
  gpu_mem_kb : UInt64
  cmd : List UInt8
  anomaly_score : D

/-- `top_procs` are the first `top_procs_count` of the array; of a provider
only its text is here. -/
structure MetricsSnapshot (D : Type) where
  cpu : CpuSnapshot D
  pmu : PmuSnapshot D
  mem : Memory D
  vram : GpuVram D
  net : NetSnapshot D
  disk : DiskSnapshot D
  mounts : List (FsMount D)
  providers : List (List UInt8)
  thermal : Thermal D
  total_processes : UInt64
  running_processes : UInt64
  state_sleeping : UInt64
  state_zombie : UInt64
  total_threads : UInt64
  top_procs : List (ProcSample D)

/-- What `render_system` reads elsewhere: the version it was built with, and
`read_kernel_version`, `read_scheduler`. -/
structure Host where
  version : List UInt8
  kernel : List UInt8
  scheduler : List UInt8

/-! ## The renderers -/

section

variable {D : Type} (lib : Doubles D)

/-- The local `san`: bytes that would have to be escaped become blanks. -/
def san (v : List UInt8) : List UInt8 :=
  v.map fun c => if c = dquote ∨ c = Ch.backslash ∨ c = Ch.newline then 0x20 else c

def mem_gib (s : MetricsSnapshot D) : D :=
  lib.div (lib.ofNat s.mem.total_kb.toNat) (lib.mul (lib.ofNat 1024) (lib.ofNat 1024))

def gpu_name (s : MetricsSnapshot D) : List UInt8 :=
  match s.vram.name, s.vram.devices with
  | [], d :: _ => d.name
  | name, _ => name

def render_system (host : Host) (s : MetricsSnapshot D) : List (Walk D) :=
  let labels :=
    [label "version" host.version, label "cpu_model" (san s.cpu.model),
      label "physical_cores" (decimal s.cpu.physical_cores.toInt),
      label "logical_cpus" (decimal s.cpu.logical_threads.toInt),
      label "mem_total_gib" (cstr (lib.fixed1 (mem_gib lib s))), label "gpu" (san (gpu_name s)),
      label "kernel" (san host.kernel), label "sched" (san host.scheduler)] ++
    when (!s.pmu.l3_per_cache_domain.isEmpty)
      [label "cache_domain" (decimal s.pmu.l3_per_cache_domain.length)]
  [.call (.info_line (ident "montauk_system_info")
    (literal "System specs: montauk version, cpu model, cores, memory, gpu, kernel, scheduler")
    labels)]

def coreKey (r : D × Nat) : List Label := [label "core" (decimal r.2)]

def coreEntry (r : D × Nat) : List (SinkCall D) :=
  [labeled_f64 (gauge "montauk_cpu_core_usage_percent" "Per-core CPU utilization") (coreKey r) r.1]

def render_cpu (s : MetricsSnapshot D) : List (Walk D) :=
  scalars [
    f64 (gauge "montauk_cpu_usage_percent" "Aggregate CPU utilization") s.cpu.usage_pct,
    f64 (gauge "montauk_cpu_user_percent" "CPU user time percent") s.cpu.pct_user,
    f64 (gauge "montauk_cpu_system_percent" "CPU system time percent") s.cpu.pct_system,
    f64 (gauge "montauk_cpu_iowait_percent" "CPU I/O wait percent") s.cpu.pct_iowait,
    f64 (gauge "montauk_cpu_irq_percent" "CPU IRQ handling percent") s.cpu.pct_irq,
    f64 (gauge "montauk_cpu_steal_percent" "CPU steal percent") s.cpu.pct_steal,
    f64 (gauge "montauk_cpu_changepoint_score"
      ("Machine load-regime changepoint " ++
        "(fast vs slow EWMA divergence over aggregate-CPU history)")) s.cpu.changepoint_score] ++
  when s.cpu.has_freq (scalars [
    f64 (gauge "montauk_cpu_frequency_mhz_avg"
      "Average current CPU frequency across online cores (MHz)") s.cpu.freq_avg_mhz]) ++
  scalars [
    f64 (gauge "montauk_cpu_context_switches_per_second" "Context switches per second")
      s.cpu.ctxt_per_sec,
    f64 (gauge "montauk_cpu_interrupts_per_second" "Hardware interrupts per second")
      s.cpu.intr_per_sec,
    i64 (gauge "montauk_cpu_physical_cores" "Physical CPU cores") s.cpu.physical_cores.toInt64,
    i64 (gauge "montauk_cpu_logical_threads" "Logical CPU threads")
      s.cpu.logical_threads.toInt64] ++
  when (!s.cpu.per_core_pct.isEmpty) [.collection (s.cpu.per_core_pct.zipIdx.map coreEntry)]

/-- The id of the `i`th CPU counted: its index where no id is known. -/
def PmuSnapshot.cpuId (p : PmuSnapshot D) (i : Nat) : Int32 :=
  (p.per_cpu_ids[i]?).getD (Int32.ofNat i)

def cpuKey (p : PmuSnapshot D) (r : UInt64 × Nat) : List Label :=
  [label "cpu" (decimal (p.cpuId r.2).toInt)]

def cpuEntry (p : PmuSnapshot D) (r : UInt64 × Nat) : List (SinkCall D) :=
  let refs := lib.ofNat ((p.per_cpu_l2_refs[r.2]?).getD 0).toNat
  let pct :=
    if lib.lt (lib.ofNat 0) refs then
      lib.div (lib.mul (lib.ofNat 100) (lib.ofNat r.1.toNat)) refs
    else lib.ofNat 0
  [labeled_u64 (gauge "montauk_pmu_l2_misses_per_cpu" "L2 misses this interval, per logical CPU")
      (cpuKey p r) r.1,
    labeled_f64 (gauge "montauk_pmu_l2_miss_percent_per_cpu" "L2 miss percent, per logical CPU")
      (cpuKey p r) pct]

def domainKey (d : DomainL3 D) : List Label := [label "cache_domain" (decimal d.domain_cpu.toInt)]

def domainEntry (d : DomainL3 D) : List (SinkCall D) :=
  [labeled_u64 (gauge "montauk_pmu_l3_misses_interval"
      "L3 misses this interval, per cache domain domain") (domainKey d) d.misses,
    labeled_u64 (gauge "montauk_pmu_l3_accesses_interval"
      "L3 accesses this interval, per cache domain domain") (domainKey d) d.accesses,
    labeled_f64 (gauge "montauk_pmu_l3_miss_percent" "L3 miss percent, per cache domain domain")
      (domainKey d) d.miss_pct]

def processKey (p : ProcCounters D) : List Label :=
  [label "pid" (decimal p.pid.toInt), label "comm" (cstr p.comm)]

def processEntry (p : ProcCounters D) : List (SinkCall D) :=
  [labeled_u64 (counter "montauk_pmu_process_instructions_total"
      "Retired instructions since attach, per process") (processKey p) p.instructions_total,
    labeled_u64 (counter "montauk_pmu_process_cycles_total"
      "CPU cycles since attach, per process") (processKey p) p.cycles_total,
    labeled_u64 (counter "montauk_pmu_process_dtlb_load_misses_total"
      "dTLB load misses since attach, per process") (processKey p) p.dtlb_load_misses_total,
    labeled_u64 (counter "montauk_pmu_process_cache_misses_total"
      "Last-level cache misses since attach, per process") (processKey p) p.cache_misses_total,
    labeled_f64 (gauge "montauk_pmu_process_dtlb_misses_per_kilo_instruction"
      "dTLB load misses per 1000 retired instructions, per process") (processKey p)
      p.dtlb_misses_per_kilo_instr,
    labeled_f64 (gauge "montauk_pmu_process_cache_misses_per_kilo_instruction"
      "Cache misses per 1000 retired instructions, per process") (processKey p)
      p.cache_misses_per_kilo_instr,
    labeled_f64 (gauge "montauk_pmu_process_ipc"
      "Instructions per cycle (interval), per process") (processKey p) p.ipc]

/-- The counters of the machine, which `available` brackets. -/
def render_pmu_counters (s : MetricsSnapshot D) : List (Walk D) :=
  scalars [
    f64 (gauge "montauk_pmu_l2_misses_per_second"
      "L2 cache misses per second (sysfs cache-misses event)") s.pmu.l2_misses_per_sec,
    f64 (gauge "montauk_pmu_l2_miss_percent" "L2 misses as percent of L2 references")
      s.pmu.l2_miss_pct,
    f64 (gauge "montauk_pmu_ipc" "Instructions per cycle (interval)") s.pmu.ipc,
    f64 (gauge "montauk_pmu_cycles_per_l2_miss" "Cycles per L2 miss (interval)")
      s.pmu.cycles_per_l2_miss,
    u64 (gauge "montauk_pmu_l2_misses_interval" "L2 misses this interval") s.pmu.l2_misses,
    f64 (gauge "montauk_pmu_instructions_per_second" "Instructions per second (interval)")
      s.pmu.instructions_per_sec,
    f64 (gauge "montauk_pmu_context_switches_per_second" "Context switches per second")
      s.pmu.context_switches_per_sec,
    f64 (gauge "montauk_pmu_cpu_migrations_per_second" "CPU migrations per second")
      s.pmu.cpu_migrations_per_sec,
    f64 (gauge "montauk_pmu_branch_misses_per_second" "Branch mispredictions per second")
      s.pmu.branch_misses_per_sec,
    u64 (counter "montauk_pmu_instructions_total"
      "Retired instructions since counters opened (cumulative)") s.pmu.instructions_total,
    u64 (counter "montauk_pmu_cycles_total" "CPU cycles since counters opened (cumulative)")
      s.pmu.cycles_total,
    u64 (counter "montauk_pmu_context_switches_total"
      "Context switches since counters opened (cumulative)") s.pmu.context_switches_total,
    u64 (counter "montauk_pmu_cpu_migrations_total"
      "CPU migrations since counters opened (cumulative)") s.pmu.cpu_migrations_total,
    u64 (counter "montauk_pmu_branch_misses_total"
      "Branch mispredictions since counters opened (cumulative)") s.pmu.branch_misses_total,
    u64 (counter "montauk_pmu_l2_misses_total"
      "L2 cache misses since counters opened (cumulative)") s.pmu.l2_misses_total,
    u64 (gauge "montauk_pmu_dtlb_load_misses_interval" "dTLB load misses this interval")
      s.pmu.dtlb_load_misses,
    u64 (counter "montauk_pmu_dtlb_load_misses_total"
      "dTLB load misses since counters opened (cumulative)") s.pmu.dtlb_load_misses_total,
    u64 (counter "montauk_pmu_cache_misses_total"
      "Last-level cache misses since counters opened (cumulative)") s.pmu.cache_misses_total] ++
  when (s.thermal.has_power && lib.lt (lib.ofNat 0) s.pmu.instructions_per_sec) (scalars [
    f64 (gauge "montauk_energy_per_instruction_pj"
      "Energy per retired instruction (picojoules), RAPL power / IPS")
      (lib.mul (lib.div s.thermal.power_watts s.pmu.instructions_per_sec)
        (lib.ofNat (10 ^ 12)))]) ++
  when (!s.pmu.per_cpu_l2_misses.isEmpty)
    [.collection (s.pmu.per_cpu_l2_misses.zipIdx.map (cpuEntry lib s.pmu))] ++
  scalars [
    boolean (gauge "montauk_pmu_l3_available" "amd_l3 uncore PMU available")
      s.pmu.l3_available] ++
  when s.pmu.l3_available [.collection (s.pmu.l3_per_cache_domain.map domainEntry)]

def render_pmu (s : MetricsSnapshot D) : List (Walk D) :=
  scalars [
    boolean (gauge "montauk_pmu_available" "Core PMU counters available") s.pmu.available] ++
  when s.pmu.available (render_pmu_counters lib s) ++
  scalars [
    boolean (gauge "montauk_pmu_per_process_available"
      "Per-process PMU attribution active (needs no privilege)") s.pmu.per_process_available] ++
  when s.pmu.per_process_available (scalars [
    boolean (gauge "montauk_pmu_per_process_user_only"
      "Per-process counts exclude kernel time (forced at perf_event_paranoid >= 2)")
      s.pmu.per_process_user_only]) ++
  when (!s.pmu.per_process.isEmpty) [.collection (s.pmu.per_process.map processEntry)]

def render_memory (s : MetricsSnapshot D) : List (Walk D) :=
  scalars [
    u64 (gauge "montauk_memory_total_bytes" "Total physical memory") (s.mem.total_kb * 1024),
    u64 (gauge "montauk_memory_used_bytes" "Used physical memory") (s.mem.used_kb * 1024),
    u64 (gauge "montauk_memory_available_bytes" "Available memory (MemAvailable)")
      (s.mem.available_kb * 1024),
    u64 (gauge "montauk_memory_cached_bytes" "Cached memory") (s.mem.cached_kb * 1024),
    u64 (gauge "montauk_memory_buffers_bytes" "Buffer memory") (s.mem.buffers_kb * 1024),
    u64 (gauge "montauk_memory_swap_total_bytes" "Total swap space") (s.mem.swap_total_kb * 1024),
    u64 (gauge "montauk_memory_swap_used_bytes" "Used swap space") (s.mem.swap_used_kb * 1024),
    f64 (gauge "montauk_memory_used_percent" "Memory utilization percent") s.mem.used_pct]

def gpuKey (d : GpuVramDevice D) : List Label := [label "device" d.name]

def gpuEntry (d : GpuVramDevice D) : List (SinkCall D) :=
  [labeled_u64 (gauge "montauk_gpu_vram_total_bytes" "Per-device GPU VRAM total") (gpuKey d)
      (d.total_mb * 1048576),
    labeled_u64 (gauge "montauk_gpu_vram_used_bytes" "Per-device GPU VRAM used") (gpuKey d)
      (d.used_mb * 1048576)] ++
  when d.has_temp_edge [
    labeled_f64 (gauge "montauk_gpu_temperature_edge_celsius" "GPU edge temperature") (gpuKey d)
      d.temp_edge_c] ++
  when d.has_temp_hotspot [
    labeled_f64 (gauge "montauk_gpu_temperature_hotspot_celsius" "GPU hotspot temperature")
      (gpuKey d) d.temp_hotspot_c] ++
  when d.has_temp_mem [
    labeled_f64 (gauge "montauk_gpu_temperature_memory_celsius" "GPU memory temperature")
      (gpuKey d) d.temp_mem_c] ++
  when d.has_fan [
    labeled_f64 (gauge "montauk_gpu_fan_speed_percent" "GPU fan speed percent") (gpuKey d)
      d.fan_speed_pct]

def render_gpu (s : MetricsSnapshot D) : List (Walk D) :=
  scalars [
    u64 (gauge "montauk_gpu_vram_total_bytes_aggregate" "Total GPU VRAM")
      (s.vram.total_mb * 1048576),
    u64 (gauge "montauk_gpu_vram_used_bytes_aggregate" "Used GPU VRAM")
      (s.vram.used_mb * 1048576),
    f64 (gauge "montauk_gpu_vram_used_percent" "GPU VRAM utilization percent")
      s.vram.used_pct] ++
  when s.vram.has_util (scalars [
    f64 (gauge "montauk_gpu_utilization_percent" "GPU core utilization") s.vram.gpu_util_pct]) ++
  when s.vram.has_mem_util (scalars [
    f64 (gauge "montauk_gpu_memory_controller_percent" "GPU memory controller utilization")
      s.vram.mem_util_pct]) ++
  when s.vram.has_encdec (scalars [
    f64 (gauge "montauk_gpu_encoder_percent" "GPU encoder utilization") s.vram.enc_util_pct,
    f64 (gauge "montauk_gpu_decoder_percent" "GPU decoder utilization") s.vram.dec_util_pct]) ++
  when s.vram.has_power (scalars [
    f64 (gauge "montauk_gpu_power_draw_watts" "GPU power draw") s.vram.power_draw_w]) ++
  when s.vram.has_power_limit (scalars [
    f64 (gauge "montauk_gpu_power_limit_watts" "GPU power limit") s.vram.power_limit_w]) ++
  when (!s.vram.devices.isEmpty) [.collection (s.vram.devices.map gpuEntry)]

def cstateKey (c : CpuIdleState D) : List Label := [label "state" c.name]

def cstateEntry (c : CpuIdleState D) : List (SinkCall D) :=
  [labeled_f64 (gauge "montauk_cstate_residency_percent"
    "Idle-state residency this interval, per state (across CPUs)") (cstateKey c) c.residency_pct]

def render_thermal (s : MetricsSnapshot D) : List (Walk D) :=
  when s.thermal.has_temp (scalars [
    f64 (gauge "montauk_thermal_cpu_temperature_celsius" "CPU max temperature")
      s.thermal.cpu_max_c]) ++
  when s.thermal.has_fan (scalars [
    f64 (gauge "montauk_thermal_fan_speed_rpm" "CPU fan speed RPM") s.thermal.fan_rpm]) ++
  when s.thermal.has_power (scalars [
    f64 (gauge "montauk_power_watts"
      "Package power draw from RAPL/powercap (energy delta per interval)")
      s.thermal.power_watts]) ++
  when s.thermal.has_energy (scalars [
    f64 (counter "montauk_package_energy_joules_total"
      ("Cumulative package energy from RAPL/powercap (joules, wrap-safe); " ++
        "window-integral energy is the counter delta")) s.thermal.energy_joules_total]) ++
  when (!s.thermal.cstates.isEmpty) [.collection (s.thermal.cstates.map cstateEntry)]

def interfaceKey (i : NetIf D) : List Label := [label "interface" i.name]

def interfaceEntry (i : NetIf D) : List (SinkCall D) :=
  [labeled_f64 (gauge "montauk_network_interface_receive_bps" "Per-interface receive bytes/sec")
      (interfaceKey i) i.rx_bps,
    labeled_f64 (gauge "montauk_network_interface_transmit_bps"
      "Per-interface transmit bytes/sec") (interfaceKey i) i.tx_bps]

def render_network (s : MetricsSnapshot D) : List (Walk D) :=
  scalars [
    f64 (gauge "montauk_network_receive_bps_total" "Aggregate receive bytes/sec")
      s.net.agg_rx_bps,
    f64 (gauge "montauk_network_transmit_bps_total" "Aggregate transmit bytes/sec")
      s.net.agg_tx_bps] ++
  when (!s.net.interfaces.isEmpty) [.collection (s.net.interfaces.map interfaceEntry)]

def diskKey (d : DiskDev D) : List Label := [label "device" d.name]

def diskEntry (d : DiskDev D) : List (SinkCall D) :=
  [labeled_f64 (gauge "montauk_disk_device_read_bps" "Per-device read bytes/sec") (diskKey d)
      d.read_bps,
    labeled_f64 (gauge "montauk_disk_device_write_bps" "Per-device write bytes/sec") (diskKey d)
      d.write_bps,
    labeled_f64 (gauge "montauk_disk_device_utilization_percent" "Per-device I/O utilization")
      (diskKey d) d.util_pct]

def render_disk (s : MetricsSnapshot D) : List (Walk D) :=
  scalars [
    f64 (gauge "montauk_disk_read_bps_total" "Aggregate disk read bytes/sec")
      s.disk.total_read_bps,
    f64 (gauge "montauk_disk_write_bps_total" "Aggregate disk write bytes/sec")
      s.disk.total_write_bps] ++
  when (!s.disk.devices.isEmpty) [.collection (s.disk.devices.map diskEntry)]

def mountKey (m : FsMount D) : List Label :=
  [label "device" m.device, label "mountpoint" m.mountpoint, label "fstype" m.fstype]

def mountEntry (m : FsMount D) : List (SinkCall D) :=
  [labeled_u64 (gauge "montauk_filesystem_total_bytes" "Filesystem total size") (mountKey m)
      m.total_bytes,
    labeled_u64 (gauge "montauk_filesystem_used_bytes" "Filesystem used bytes") (mountKey m)
      m.used_bytes,
    labeled_u64 (gauge "montauk_filesystem_available_bytes" "Filesystem available bytes")
      (mountKey m) m.avail_bytes,
    labeled_f64 (gauge "montauk_filesystem_used_percent" "Filesystem utilization percent")
      (mountKey m) m.used_pct]

def render_filesystems (s : MetricsSnapshot D) : List (Walk D) :=
  [.collection (s.mounts.map mountEntry)]

def render_providers (s : MetricsSnapshot D) : List (Walk D) :=
  when (!s.providers.isEmpty) [.collection (s.providers.map fun p => [.provider p])]

def topKey (p : ProcSample D) : List Label :=
  [label "pid" (decimal p.pid.toInt), label "cmd" (p.cmd.take 32)]

def topEntry (p : ProcSample D) : List (SinkCall D) :=
  [labeled_f64 (gauge "montauk_process_cpu_percent" "Per-process CPU utilization") (topKey p)
      p.cpu_pct,
    labeled_u64 (gauge "montauk_process_memory_bytes" "Per-process resident memory") (topKey p)
      (p.rss_kb * 1024)] ++
  when p.has_gpu_util [
    labeled_f64 (gauge "montauk_process_gpu_utilization_percent" "Per-process GPU utilization")
      (topKey p) p.gpu_util_pct] ++
  when p.has_gpu_mem [
    labeled_u64 (gauge "montauk_process_gpu_memory_bytes" "Per-process GPU memory") (topKey p)
      (p.gpu_mem_kb * 1024)] ++
  [labeled_f64 (gauge "montauk_process_anomaly_score" "Per-process fused anomaly score")
    (topKey p) p.anomaly_score]

def render_processes (s : MetricsSnapshot D) : List (Walk D) :=
  scalars [
    u64 (gauge "montauk_processes_total" "Total processes") s.total_processes,
    u64 (gauge "montauk_processes_running" "Running processes") s.running_processes,
    u64 (gauge "montauk_processes_sleeping" "Sleeping processes") s.state_sleeping,
    u64 (gauge "montauk_processes_zombie" "Zombie processes") s.state_zombie,
    u64 (gauge "montauk_threads_total" "Total threads") s.total_threads] ++
  when (!s.top_procs.isEmpty) [.collection (s.top_procs.map topEntry)]

def render_snapshot (host : Host) (s : MetricsSnapshot D) : List (Walk D) :=
  render_system lib host s ++ render_cpu s ++ render_pmu lib s ++ render_memory s ++
    render_gpu s ++ render_thermal s ++ render_network s ++ render_disk s ++
    render_filesystems s ++ render_providers s ++ render_processes s

/-- `snapshot_to_prometheus`. -/
def snapshot_to_prometheus (host : Host) (s : MetricsSnapshot D) : List UInt8 :=
  PrometheusSink.text lib.toDoubleText (render_snapshot lib host s)

end

/-! ## Rows apart -/

section

variable {D : Type}

/-- The CPUs counted, as the samples name them. -/
def PmuSnapshot.cpus (p : PmuSnapshot D) : List Int32 :=
  p.per_cpu_l2_misses.zipIdx.map fun r => p.cpuId r.2

/-- In no collection do two rows have the same labels. -/
structure MetricsSnapshot.RowsApart (s : MetricsSnapshot D) : Prop where
  cpus : s.pmu.available = true → s.pmu.cpus.Nodup
  domains : s.pmu.available = true → s.pmu.l3_available = true →
    (s.pmu.l3_per_cache_domain.map (·.domain_cpu)).Nodup
  processes : (s.pmu.per_process.map fun p => (p.pid, cstr p.comm)).Nodup
  gpus : (s.vram.devices.map (·.name)).Nodup
  cstates : (s.thermal.cstates.map (·.name)).Nodup
  interfaces : (s.net.interfaces.map (·.name)).Nodup
  disks : (s.disk.devices.map (·.name)).Nodup
  mounts : (s.mounts.map fun m => (m.device, m.mountpoint, m.fstype)).Nodup
  top : (s.top_procs.map fun p => (p.pid, p.cmd.take 32)).Nodup

/-! ## What each renderer covers -/

theorem nodup_one (k : String) : ([k].map ident).Nodup := List.nodup_singleton _

variable (lib : Doubles D)

theorem covers_system (host : Host) (s : MetricsSnapshot D) :
    Covers lib.toDoubleText (["montauk_system_info"].map ident) (render_system lib host s) True :=
  Covers.info _ _ _

def cpuFamilies : List String :=
  ["montauk_cpu_usage_percent", "montauk_cpu_user_percent", "montauk_cpu_system_percent",
    "montauk_cpu_iowait_percent", "montauk_cpu_irq_percent", "montauk_cpu_steal_percent",
    "montauk_cpu_changepoint_score", "montauk_cpu_frequency_mhz_avg",
    "montauk_cpu_context_switches_per_second", "montauk_cpu_interrupts_per_second",
    "montauk_cpu_physical_cores", "montauk_cpu_logical_threads",
    "montauk_cpu_core_usage_percent"]

theorem rowsOf_core :
    RowsOf (D := D) (["montauk_cpu_core_usage_percent"].map ident) coreEntry coreKey :=
  rowsOf_plain (fun _ => rfl) (fun _ => nofun) (fun _ => rfl) (nodup_one "core")
    fun _ => List.Sublist.refl _

theorem coreKeys_nodup (pcts : List D) : (pcts.zipIdx.map coreKey).Nodup := by
  have hkey : ∀ a b : D × Nat, coreKey a = coreKey b ↔ a.2 = b.2 := by
    intro a b
    simp only [coreKey, List.cons.injEq, label_inj, decimal_inj, Int.natCast_inj, and_true]
  rw [nodup_keys_iff hkey, List.zipIdx_map_snd]
  exact List.nodup_range'

theorem covers_cpu (s : MetricsSnapshot D) :
    Covers lib.toDoubleText (cpuFamilies.map ident) (render_cpu s) True := by
  refine Covers.of_names (.append (.append (.append (.scalars _) (.when (.scalars _) _))
    (.scalars _)) (.when (.rows rowsOf_core _) _)) rfl ?_
  simp [coreKeys_nodup]

def pmuCounterFamilies : List String :=
  ["montauk_pmu_l2_misses_per_second", "montauk_pmu_l2_miss_percent", "montauk_pmu_ipc",
    "montauk_pmu_cycles_per_l2_miss", "montauk_pmu_l2_misses_interval",
    "montauk_pmu_instructions_per_second", "montauk_pmu_context_switches_per_second",
    "montauk_pmu_cpu_migrations_per_second", "montauk_pmu_branch_misses_per_second",
    "montauk_pmu_instructions_total", "montauk_pmu_cycles_total",
    "montauk_pmu_context_switches_total", "montauk_pmu_cpu_migrations_total",
    "montauk_pmu_branch_misses_total", "montauk_pmu_l2_misses_total",
    "montauk_pmu_dtlb_load_misses_interval", "montauk_pmu_dtlb_load_misses_total",
    "montauk_pmu_cache_misses_total", "montauk_energy_per_instruction_pj",
    "montauk_pmu_l2_misses_per_cpu", "montauk_pmu_l2_miss_percent_per_cpu",
    "montauk_pmu_l3_available", "montauk_pmu_l3_misses_interval",
    "montauk_pmu_l3_accesses_interval", "montauk_pmu_l3_miss_percent"]

theorem rowsOf_cpu (p : PmuSnapshot D) :
    RowsOf (["montauk_pmu_l2_misses_per_cpu", "montauk_pmu_l2_miss_percent_per_cpu"].map ident)
      (cpuEntry lib p) (cpuKey p) :=
  rowsOf_plain (fun _ => rfl) (fun _ => by simp [labeled_f64, Plain]) (fun _ => rfl)
    (nodup_one "cpu") fun _ => List.Sublist.refl _

theorem cpuKeys_nodup (p : PmuSnapshot D) :
    (p.per_cpu_l2_misses.zipIdx.map (cpuKey p)).Nodup ↔ p.cpus.Nodup := by
  refine nodup_keys_iff ?_ _
  intro a b
  simp only [cpuKey, List.cons.injEq, label_inj, decimal_inj, Int32.toInt_inj, and_true]

theorem rowsOf_domain :
    RowsOf (D := D) (["montauk_pmu_l3_misses_interval", "montauk_pmu_l3_accesses_interval",
      "montauk_pmu_l3_miss_percent"].map ident) domainEntry domainKey :=
  rowsOf_plain (fun _ => rfl) (fun _ => by simp [labeled_u64, labeled_f64, Plain])
    (fun _ => rfl) (nodup_one "cache_domain") fun _ => List.Sublist.refl _

theorem domainKeys_nodup (ds : List (DomainL3 D)) :
    (ds.map domainKey).Nodup ↔ (ds.map (·.domain_cpu)).Nodup := by
  refine nodup_keys_iff ?_ _
  intro a b
  simp only [domainKey, List.cons.injEq, label_inj, decimal_inj, Int32.toInt_inj, and_true]

theorem covers_pmu_counters (s : MetricsSnapshot D) :
    Covers lib.toDoubleText (pmuCounterFamilies.map ident) (render_pmu_counters lib s)
      (s.pmu.cpus.Nodup ∧
        (s.pmu.l3_available = true → (s.pmu.l3_per_cache_domain.map (·.domain_cpu)).Nodup)) := by
  have hcpus : ((!s.pmu.per_cpu_l2_misses.isEmpty) = true → s.pmu.cpus.Nodup) ↔
      s.pmu.cpus.Nodup := by
    cases hmisses : s.pmu.per_cpu_l2_misses with
    | nil => simp [PmuSnapshot.cpus, hmisses]
    | cons m ms => simp
  refine Covers.of_names (.append (.append (.append (.append (.scalars _) (.when (.scalars _) _))
    (.when (.rows (rowsOf_cpu lib s.pmu) _) _)) (.scalars _))
    (.when (.rows rowsOf_domain _) _)) rfl ?_
  rw [cpuKeys_nodup, domainKeys_nodup, hcpus]
  simp

def pmuFamilies : List String :=
  ["montauk_pmu_available"] ++ pmuCounterFamilies ++
    ["montauk_pmu_per_process_available", "montauk_pmu_per_process_user_only",
      "montauk_pmu_process_instructions_total", "montauk_pmu_process_cycles_total",
      "montauk_pmu_process_dtlb_load_misses_total", "montauk_pmu_process_cache_misses_total",
      "montauk_pmu_process_dtlb_misses_per_kilo_instruction",
      "montauk_pmu_process_cache_misses_per_kilo_instruction", "montauk_pmu_process_ipc"]

theorem rowsOf_process :
    RowsOf (D := D) (["montauk_pmu_process_instructions_total",
      "montauk_pmu_process_cycles_total", "montauk_pmu_process_dtlb_load_misses_total",
      "montauk_pmu_process_cache_misses_total",
      "montauk_pmu_process_dtlb_misses_per_kilo_instruction",
      "montauk_pmu_process_cache_misses_per_kilo_instruction",
      "montauk_pmu_process_ipc"].map ident) processEntry processKey :=
  have hkeys : (["pid", "comm"].map ident).Nodup := nodup_idents (by decide +kernel)
  rowsOf_plain (fun _ => rfl) (fun _ => by simp [labeled_u64, labeled_f64, Plain])
    (fun _ => rfl) hkeys fun _ => List.Sublist.refl _

theorem processKeys_nodup (ps : List (ProcCounters D)) :
    (ps.map processKey).Nodup ↔ (ps.map fun p => (p.pid, cstr p.comm)).Nodup := by
  refine nodup_keys_iff ?_ _
  intro a b
  simp only [processKey, List.cons.injEq, label_inj, decimal_inj, Int32.toInt_inj, Prod.mk.injEq,
    and_true]

theorem covers_pmu (s : MetricsSnapshot D) :
    Covers lib.toDoubleText (pmuFamilies.map ident) (render_pmu lib s)
      ((s.pmu.available = true → s.pmu.cpus.Nodup ∧
          (s.pmu.l3_available = true →
            (s.pmu.l3_per_cache_domain.map (·.domain_cpu)).Nodup)) ∧
        (s.pmu.per_process.map fun p => (p.pid, cstr p.comm)).Nodup) := by
  refine Covers.of_names (.append (.append (.append (.append (.scalars _)
    (.when (covers_pmu_counters lib s) _)) (.scalars _)) (.when (.scalars _) _))
    (covers_rows_when rowsOf_process _)) rfl ?_
  rw [processKeys_nodup]
  simp

def memoryFamilies : List String :=
  ["montauk_memory_total_bytes", "montauk_memory_used_bytes", "montauk_memory_available_bytes",
    "montauk_memory_cached_bytes", "montauk_memory_buffers_bytes",
    "montauk_memory_swap_total_bytes", "montauk_memory_swap_used_bytes",
    "montauk_memory_used_percent"]

theorem covers_memory (s : MetricsSnapshot D) :
    Covers lib.toDoubleText (memoryFamilies.map ident) (render_memory s) True :=
  Covers.of_names (.scalars _) rfl Iff.rfl

def gpuFamilies : List String :=
  ["montauk_gpu_vram_total_bytes_aggregate", "montauk_gpu_vram_used_bytes_aggregate",
    "montauk_gpu_vram_used_percent", "montauk_gpu_utilization_percent",
    "montauk_gpu_memory_controller_percent", "montauk_gpu_encoder_percent",
    "montauk_gpu_decoder_percent", "montauk_gpu_power_draw_watts",
    "montauk_gpu_power_limit_watts", "montauk_gpu_vram_total_bytes",
    "montauk_gpu_vram_used_bytes", "montauk_gpu_temperature_edge_celsius",
    "montauk_gpu_temperature_hotspot_celsius", "montauk_gpu_temperature_memory_celsius",
    "montauk_gpu_fan_speed_percent"]

theorem rowsOf_gpu :
    RowsOf (D := D) (["montauk_gpu_vram_total_bytes", "montauk_gpu_vram_used_bytes",
      "montauk_gpu_temperature_edge_celsius", "montauk_gpu_temperature_hotspot_celsius",
      "montauk_gpu_temperature_memory_celsius", "montauk_gpu_fan_speed_percent"].map ident)
      gpuEntry gpuKey := by
  refine rowsOf_plain (fun _ => rfl) ?_ (fun _ => rfl) (nodup_one "device") ?_
  · intro d
    simp [labeled_u64, labeled_f64, Plain, mem_when, or_imp, forall_and]
  · intro d
    simp only [gpuEntry, List.filterMap_append, filterMap_when]
    exact ((((List.Sublist.refl _).append (sublist_when _ _)).append (sublist_when _ _)).append
      (sublist_when _ _)).append (sublist_when _ _)

theorem gpuKeys_nodup (ds : List (GpuVramDevice D)) :
    (ds.map gpuKey).Nodup ↔ (ds.map (·.name)).Nodup := by
  refine nodup_keys_iff ?_ _
  intro a b
  simp only [gpuKey, List.cons.injEq, label_inj, and_true]

theorem covers_gpu (s : MetricsSnapshot D) :
    Covers lib.toDoubleText (gpuFamilies.map ident) (render_gpu s)
      ((s.vram.devices.map (·.name)).Nodup) := by
  refine Covers.of_names (.append (.append (.append (.append (.append (.append (.scalars _)
    (.when (.scalars _) _)) (.when (.scalars _) _)) (.when (.scalars _) _))
    (.when (.scalars _) _)) (.when (.scalars _) _)) (covers_rows_when rowsOf_gpu _)) rfl ?_
  rw [gpuKeys_nodup]
  simp

def thermalFamilies : List String :=
  ["montauk_thermal_cpu_temperature_celsius", "montauk_thermal_fan_speed_rpm",
    "montauk_power_watts", "montauk_package_energy_joules_total",
    "montauk_cstate_residency_percent"]

theorem rowsOf_cstate :
    RowsOf (D := D) (["montauk_cstate_residency_percent"].map ident) cstateEntry cstateKey :=
  rowsOf_plain (fun _ => rfl) (fun _ => nofun) (fun _ => rfl) (nodup_one "state")
    fun _ => List.Sublist.refl _

theorem cstateKeys_nodup (cs : List (CpuIdleState D)) :
    (cs.map cstateKey).Nodup ↔ (cs.map (·.name)).Nodup := by
  refine nodup_keys_iff ?_ _
  intro a b
  simp only [cstateKey, List.cons.injEq, label_inj, and_true]

theorem covers_thermal (s : MetricsSnapshot D) :
    Covers lib.toDoubleText (thermalFamilies.map ident) (render_thermal s)
      ((s.thermal.cstates.map (·.name)).Nodup) := by
  refine Covers.of_names (.append (.append (.append (.append (.when (.scalars _) _)
    (.when (.scalars _) _)) (.when (.scalars _) _)) (.when (.scalars _) _))
    (covers_rows_when rowsOf_cstate _)) rfl ?_
  rw [cstateKeys_nodup]
  simp

def networkFamilies : List String :=
  ["montauk_network_receive_bps_total", "montauk_network_transmit_bps_total",
    "montauk_network_interface_receive_bps", "montauk_network_interface_transmit_bps"]

theorem rowsOf_interface :
    RowsOf (D := D) (["montauk_network_interface_receive_bps",
      "montauk_network_interface_transmit_bps"].map ident) interfaceEntry interfaceKey :=
  rowsOf_plain (fun _ => rfl) (fun _ => by simp [labeled_f64, Plain]) (fun _ => rfl)
    (nodup_one "interface") fun _ => List.Sublist.refl _

theorem interfaceKeys_nodup (is : List (NetIf D)) :
    (is.map interfaceKey).Nodup ↔ (is.map (·.name)).Nodup := by
  refine nodup_keys_iff ?_ _
  intro a b
  simp only [interfaceKey, List.cons.injEq, label_inj, and_true]

theorem covers_network (s : MetricsSnapshot D) :
    Covers lib.toDoubleText (networkFamilies.map ident) (render_network s)
      ((s.net.interfaces.map (·.name)).Nodup) := by
  refine Covers.of_names (.append (.scalars _) (covers_rows_when rowsOf_interface _)) rfl ?_
  rw [interfaceKeys_nodup]
  simp

def diskFamilies : List String :=
  ["montauk_disk_read_bps_total", "montauk_disk_write_bps_total",
    "montauk_disk_device_read_bps", "montauk_disk_device_write_bps",
    "montauk_disk_device_utilization_percent"]

theorem rowsOf_disk :
    RowsOf (D := D) (["montauk_disk_device_read_bps", "montauk_disk_device_write_bps",
      "montauk_disk_device_utilization_percent"].map ident) diskEntry diskKey :=
  rowsOf_plain (fun _ => rfl) (fun _ => by simp [labeled_f64, Plain]) (fun _ => rfl)
    (nodup_one "device") fun _ => List.Sublist.refl _

theorem diskKeys_nodup (ds : List (DiskDev D)) :
    (ds.map diskKey).Nodup ↔ (ds.map (·.name)).Nodup := by
  refine nodup_keys_iff ?_ _
  intro a b
  simp only [diskKey, List.cons.injEq, label_inj, and_true]

theorem covers_disk (s : MetricsSnapshot D) :
    Covers lib.toDoubleText (diskFamilies.map ident) (render_disk s)
      ((s.disk.devices.map (·.name)).Nodup) := by
  refine Covers.of_names (.append (.scalars _) (covers_rows_when rowsOf_disk _)) rfl ?_
  rw [diskKeys_nodup]
  simp

def filesystemFamilies : List String :=
  ["montauk_filesystem_total_bytes", "montauk_filesystem_used_bytes",
    "montauk_filesystem_available_bytes", "montauk_filesystem_used_percent"]

theorem rowsOf_mount :
    RowsOf (D := D) (filesystemFamilies.map ident) mountEntry mountKey :=
  have hkeys : (["device", "mountpoint", "fstype"].map ident).Nodup :=
    nodup_idents (by decide +kernel)
  rowsOf_plain (fun _ => rfl) (fun _ => by simp [labeled_u64, labeled_f64, Plain])
    (fun _ => rfl) hkeys fun _ => List.Sublist.refl _

theorem mountKeys_nodup (ms : List (FsMount D)) :
    (ms.map mountKey).Nodup ↔ (ms.map fun m => (m.device, m.mountpoint, m.fstype)).Nodup := by
  refine nodup_keys_iff ?_ _
  intro a b
  simp only [mountKey, List.cons.injEq, label_inj, Prod.mk.injEq, and_true]

theorem covers_filesystems (s : MetricsSnapshot D) :
    Covers lib.toDoubleText (filesystemFamilies.map ident) (render_filesystems s)
      ((s.mounts.map fun m => (m.device, m.mountpoint, m.fstype)).Nodup) :=
  (Covers.rows rowsOf_mount _).congr (mountKeys_nodup _)

theorem covers_providers {s : MetricsSnapshot D} (h : ∀ p ∈ s.providers, p = []) :
    Covers lib.toDoubleText [] (render_providers s) True :=
  ((Covers.providers h).when _).congr (by simp)

def processFamilies : List String :=
  ["montauk_processes_total", "montauk_processes_running", "montauk_processes_sleeping",
    "montauk_processes_zombie", "montauk_threads_total", "montauk_process_cpu_percent",
    "montauk_process_memory_bytes", "montauk_process_gpu_utilization_percent",
    "montauk_process_gpu_memory_bytes", "montauk_process_anomaly_score"]

theorem rowsOf_top :
    RowsOf (D := D) (["montauk_process_cpu_percent", "montauk_process_memory_bytes",
      "montauk_process_gpu_utilization_percent", "montauk_process_gpu_memory_bytes",
      "montauk_process_anomaly_score"].map ident) topEntry topKey := by
  have hkeys : (["pid", "cmd"].map ident).Nodup := nodup_idents (by decide +kernel)
  refine rowsOf_plain (fun _ => rfl) ?_ (fun _ => rfl) hkeys ?_
  · intro p
    simp [labeled_u64, labeled_f64, Plain, mem_when, or_imp, forall_and]
  · intro p
    simp only [topEntry, List.filterMap_append, filterMap_when]
    exact (((List.Sublist.refl _).append (sublist_when _ _)).append (sublist_when _ _)).append
      (List.Sublist.refl _)

theorem topKeys_nodup (ps : List (ProcSample D)) :
    (ps.map topKey).Nodup ↔ (ps.map fun p => (p.pid, p.cmd.take 32)).Nodup := by
  refine nodup_keys_iff ?_ _
  intro a b
  simp only [topKey, List.cons.injEq, label_inj, decimal_inj, Int32.toInt_inj, Prod.mk.injEq,
    and_true]

theorem covers_processes (s : MetricsSnapshot D) :
    Covers lib.toDoubleText (processFamilies.map ident) (render_processes s)
      ((s.top_procs.map fun p => (p.pid, p.cmd.take 32)).Nodup) := by
  refine Covers.of_names (.append (.scalars _) (covers_rows_when rowsOf_top _)) rfl ?_
  rw [topKeys_nodup]
  simp

/-! ## The snapshot -/

def snapshotFamilies : List String :=
  ["montauk_system_info"] ++ cpuFamilies ++ pmuFamilies ++ memoryFamilies ++ gpuFamilies ++
    thermalFamilies ++ networkFamilies ++ diskFamilies ++ filesystemFamilies ++ processFamilies

/-- A snapshot without provider text is apart if and only if its rows are. -/
theorem covers_snapshot (host : Host) {s : MetricsSnapshot D} (h : ∀ p ∈ s.providers, p = []) :
    Covers lib.toDoubleText (snapshotFamilies.map ident) (render_snapshot lib host s)
      s.RowsApart := by
  refine Covers.of_names (.append (.append (.append (.append (.append (.append (.append (.append
    (.append (.append (covers_system lib host s) (covers_cpu lib s)) (covers_pmu lib s))
    (covers_memory lib s)) (covers_gpu lib s)) (covers_thermal lib s)) (covers_network lib s))
    (covers_disk lib s)) (covers_filesystems lib s)) (covers_providers lib h))
    (covers_processes lib s)) ?_ ?_
  · simp [snapshotFamilies]
  · constructor
    · rintro ⟨⟨⟨⟨⟨⟨⟨⟨⟨⟨-, -⟩, hpmu, hprocs⟩, -⟩, hgpu⟩, hthermal⟩, hnet⟩, hdisk⟩, hfs⟩, -⟩, htop⟩
      exact ⟨fun ha => (hpmu ha).1, fun ha => (hpmu ha).2, hprocs, hgpu, hthermal, hnet, hdisk,
        hfs, htop⟩
    · intro hr
      exact ⟨⟨⟨⟨⟨⟨⟨⟨⟨⟨trivial, trivial⟩, fun ha => ⟨hr.cpus ha, hr.domains ha⟩, hr.processes⟩,
        trivial⟩, hr.gpus⟩, hr.cstates⟩, hr.interfaces⟩, hr.disks⟩, hr.mounts⟩, trivial⟩,
        hr.top⟩

end

end Montauk.App
