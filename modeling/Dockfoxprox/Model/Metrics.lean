import Dockfoxprox.Model.State

/-! `metrics.rs`: the counters of the two servers, and the page of `/metrics`. The counters and
gauges of eviction are in the `Metrics` of the state. -/

namespace Dockfoxprox

/-- The counters of the Docker registry endpoints. -/
structure DockerMetrics where
  dockerManifestGet : ℕ := 0
  dockerManifestHead : ℕ := 0
  dockerManifestPut : ℕ := 0
  dockerManifestCacheHit : ℕ := 0
  dockerManifestCacheMiss : ℕ := 0
  dockerBlobGet : ℕ := 0
  dockerBlobHead : ℕ := 0
  dockerBlobCacheHitMemory : ℕ := 0
  dockerBlobCacheHitDisk : ℕ := 0
  dockerBlobCacheMiss : ℕ := 0
  dockerBlobUploadPost : ℕ := 0
  dockerBlobUploadPatch : ℕ := 0
  dockerBlobUploadPut : ℕ := 0
  dockerBlobUploadDelete : ℕ := 0
  dockerAuthFailures : ℕ := 0
  dockerUpstreamRequests : ℕ := 0
  dockerUpstreamErrors : ℕ := 0

/-- The counters of the Redis-protocol server. -/
structure RedisMetrics where
  redisConnections : ℕ := 0
  redisCommands : ℕ := 0
  redisGetHit : ℕ := 0
  redisGetMiss : ℕ := 0
  redisSet : ℕ := 0
  redisDel : ℕ := 0
  redisAuthFailures : ℕ := 0

namespace State

variable (s : State)

def largeMemoryUsage : BitVec 64 := s.usage .largeBlobMemory + s.usage .largeRedisMemory

def smallMemoryUsage : BitVec 64 :=
  s.usage .manifestMemory + s.usage .smallBlobMemory + s.usage .smallRedisMemory

/-- Sum of every bucket that counts against the memory limit. -/
def totalMemoryUsage : BitVec 64 := s.largeMemoryUsage + s.smallMemoryUsage

/-- Sum of every bucket that counts against the disk limit. -/
def totalDiskUsage : BitVec 64 := s.usage .blobDisk + s.usage .redisDisk

end State

/-- One metric of the page. -/
structure Metric where
  name : String
  help : String
  kind : String
  value : ℕ
deriving DecidableEq

def gauge (name help : String) (value : ℕ) : Metric := ⟨name, help, "gauge", value⟩

def counter (name help : String) (value : ℕ) : Metric := ⟨name, help, "counter", value⟩

/-- An `i64` as `.max(0) as u64`. -/
def clamp (n : BitVec 64) : ℕ := n.toInt.toNat

/-- The metrics in the order of the page; `uploads` and `tokens` are the sizes of these maps. -/
def metricsPage (s : State) (docker : DockerMetrics) (redis : RedisMetrics) (uploads tokens : ℕ) :
    List Metric :=
  [
    gauge "dockfoxprox_memory_usage_bytes"
      "Total in-memory cache size (manifests + blobs + redis entries)."
      (clamp s.totalMemoryUsage),
    gauge "dockfoxprox_small_memory_usage_bytes"
      "Small-pool memory usage (manifests + small blobs + small redis entries)."
      (clamp s.smallMemoryUsage),
    gauge "dockfoxprox_large_memory_usage_bytes"
      "Large-pool memory usage (large in-memory blobs + large redis entries)."
      (clamp s.largeMemoryUsage),
    gauge "dockfoxprox_disk_usage_bytes"
      "Total on-disk cache size (blobs + redis entries)."
      (clamp s.totalDiskUsage),
    gauge "dockfoxprox_manifest_memory_usage_bytes"
      "Bytes of manifest content held in memory."
      (clamp (s.usage .manifestMemory)),
    gauge "dockfoxprox_small_blob_memory_usage_bytes"
      "Bytes of small in-memory blob content (at or below the small/large threshold)."
      (clamp (s.usage .smallBlobMemory)),
    gauge "dockfoxprox_large_blob_memory_usage_bytes"
      "Bytes of large in-memory blob content (above the small/large threshold)."
      (clamp (s.usage .largeBlobMemory)),
    gauge "dockfoxprox_small_redis_memory_usage_bytes"
      "Bytes of small in-memory redis entries (key + value, value at or below the threshold)."
      (clamp (s.usage .smallRedisMemory)),
    gauge "dockfoxprox_large_redis_memory_usage_bytes"
      "Bytes of large in-memory redis entries (key + value, value above the threshold)."
      (clamp (s.usage .largeRedisMemory)),
    gauge "dockfoxprox_blob_disk_usage_bytes"
      "Bytes of blob content stored on disk."
      (clamp (s.usage .blobDisk)),
    gauge "dockfoxprox_redis_disk_usage_bytes"
      "Bytes of redis-protocol entries stored on disk."
      (clamp (s.usage .redisDisk)),
    gauge "dockfoxprox_oldest_small_memory_touch_time_seconds"
      "Unix time of the oldest last_accessed across small-pool items (0 if none)."
      s.metrics.oldestSmallMemoryTouchTime,
    gauge "dockfoxprox_oldest_large_memory_touch_time_seconds"
      "Unix time of the oldest last_accessed across large-pool items (0 if none)."
      s.metrics.oldestLargeMemoryTouchTime,
    gauge "dockfoxprox_oldest_disk_touch_time_seconds"
      "Unix time of the oldest last_accessed across disk-pool items (0 if none)."
      s.metrics.oldestDiskTouchTime,
    gauge "dockfoxprox_memory_limit_bytes"
      "Configured total memory budget."
      s.config.memoryLimit,
    gauge "dockfoxprox_small_memory_limit_bytes"
      "Configured small-pool reservation within the memory budget."
      s.config.smallMemoryLimit,
    gauge "dockfoxprox_disk_limit_bytes"
      "Configured on-disk budget."
      s.config.diskLimit,
    gauge "dockfoxprox_blobs_cached"
      "Number of blobs currently in the cache (memory + disk)."
      s.blobs.entries.length,
    gauge "dockfoxprox_manifests_cached"
      "Number of manifests currently in the cache."
      s.manifests.entries.length,
    gauge "dockfoxprox_tags_cached"
      "Number of `self`-host tag mappings."
      s.tags.entries.length,
    gauge "dockfoxprox_uploads_in_progress"
      "Number of in-flight blob uploads."
      uploads,
    gauge "dockfoxprox_redis_entries"
      "Number of entries in the Redis-protocol cache."
      s.redisEntries.entries.length,
    gauge "dockfoxprox_upstream_tokens_cached"
      "Number of cached upstream bearer tokens."
      tokens,
    counter "dockfoxprox_docker_manifest_get_total"
      "Manifest GET requests served."
      docker.dockerManifestGet,
    counter "dockfoxprox_docker_manifest_head_total"
      "Manifest HEAD requests served."
      docker.dockerManifestHead,
    counter "dockfoxprox_docker_manifest_put_total"
      "Manifest PUT requests served."
      docker.dockerManifestPut,
    counter "dockfoxprox_docker_manifest_cache_hit_total"
      "Manifest lookups served from cache."
      docker.dockerManifestCacheHit,
    counter "dockfoxprox_docker_manifest_cache_miss_total"
      "Manifest lookups that required an upstream fetch."
      docker.dockerManifestCacheMiss,
    counter "dockfoxprox_docker_blob_get_total"
      "Blob GET requests served."
      docker.dockerBlobGet,
    counter "dockfoxprox_docker_blob_head_total"
      "Blob HEAD requests served."
      docker.dockerBlobHead,
    counter "dockfoxprox_docker_blob_cache_hit_memory_total"
      "Blob lookups served from the in-memory tier."
      docker.dockerBlobCacheHitMemory,
    counter "dockfoxprox_docker_blob_cache_hit_disk_total"
      "Blob lookups served from the on-disk tier."
      docker.dockerBlobCacheHitDisk,
    counter "dockfoxprox_docker_blob_cache_miss_total"
      "Blob lookups that required an upstream fetch."
      docker.dockerBlobCacheMiss,
    counter "dockfoxprox_docker_blob_upload_post_total"
      "Blob upload sessions started (POST)."
      docker.dockerBlobUploadPost,
    counter "dockfoxprox_docker_blob_upload_patch_total"
      "Blob upload chunks received (PATCH)."
      docker.dockerBlobUploadPatch,
    counter "dockfoxprox_docker_blob_upload_put_total"
      "Blob upload sessions finalised (PUT)."
      docker.dockerBlobUploadPut,
    counter "dockfoxprox_docker_blob_upload_delete_total"
      "Blob upload sessions cancelled (DELETE)."
      docker.dockerBlobUploadDelete,
    counter "dockfoxprox_docker_auth_failures_total"
      "Authentication failures against the docker endpoint."
      docker.dockerAuthFailures,
    counter "dockfoxprox_docker_upstream_requests_total"
      "Requests sent to upstream registries."
      docker.dockerUpstreamRequests,
    counter "dockfoxprox_docker_upstream_errors_total"
      "Upstream requests that failed at the transport layer."
      docker.dockerUpstreamErrors,
    counter "dockfoxprox_redis_connections_total"
      "Redis-protocol connections accepted."
      redis.redisConnections,
    counter "dockfoxprox_redis_commands_total"
      "Redis-protocol commands processed."
      redis.redisCommands,
    counter "dockfoxprox_redis_get_hit_total"
      "Redis GET commands that returned a value."
      redis.redisGetHit,
    counter "dockfoxprox_redis_get_miss_total"
      "Redis GET commands that returned nil."
      redis.redisGetMiss,
    counter "dockfoxprox_redis_set_total"
      "Redis SET commands served."
      redis.redisSet,
    counter "dockfoxprox_redis_del_total"
      "Keys removed via DEL/UNLINK."
      redis.redisDel,
    counter "dockfoxprox_redis_auth_failures_total"
      "Redis AUTH attempts with the wrong password."
      redis.redisAuthFailures,
    counter "dockfoxprox_eviction_runs_total"
      "Eviction passes executed."
      s.metrics.evictionRuns,
    counter "dockfoxprox_eviction_blobs_to_disk_total"
      "Blobs demoted from memory to disk by eviction."
      s.metrics.evictionBlobsToDisk,
    counter "dockfoxprox_eviction_blobs_deleted_total"
      "Blobs deleted (from memory or disk) by eviction."
      s.metrics.evictionBlobsDeleted,
    counter "dockfoxprox_eviction_manifests_deleted_total"
      "Manifests deleted by eviction."
      s.metrics.evictionManifestsDeleted,
    counter "dockfoxprox_eviction_redis_entries_total"
      "Redis entries dropped by eviction."
      s.metrics.evictionRedisEntries]

/-- The three lines of a metric, `write_metric`. -/
def Metric.write (m : Metric) : String :=
  "# HELP " ++ m.name ++ " " ++ m.help ++ "\n" ++
  "# TYPE " ++ m.name ++ " " ++ m.kind ++ "\n" ++
  m.name ++ " " ++ Nat.repr m.value ++ "\n"

/-- The metrics in Prometheus text exposition format. -/
def render (s : State) (docker : DockerMetrics) (redis : RedisMetrics) (uploads tokens : ℕ) :
    String :=
  (metricsPage s docker redis uploads tokens).foldl (fun out m => out ++ m.write) ""

end Dockfoxprox
