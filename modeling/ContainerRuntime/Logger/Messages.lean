import ContainerRuntime.Host.World

/-! What `log_event_type` is given, and the status that `logger.c` shows for it. -/

set_option autoImplicit false

namespace ContainerRuntime

open CString

/-- Signal numbers of `WTERMSIG`. -/
def SIGKILL : Nat := 9
def SIGXCPU : Nat := 24

def RESOURCE_LIMIT_HIT : Text := lit "RESOURCE_LIMIT_HIT"
def CONTAINER_STOPPED : Text := lit "CONTAINER_STOPPED"

namespace LogEvent

/-- The first argument of `log_event_type`. -/
def eventType : LogEvent → Text
  | .saveFailedToOpen | .saveFailedToClose | .saveFailedToRename => lit "ERROR"
  | .exited _ _ (.signaled signal) => if signal = SIGXCPU then RESOURCE_LIMIT_HIT else CONTAINER_STOPPED
  | .exited _ _ (.exited _) => CONTAINER_STOPPED
  | .recovered _ | .stopped _ _ => CONTAINER_STOPPED
  | .failedToStop _ _ | .failedToReap _ _ | .startFailed _ _ => lit "ERROR"
  | .restored _ => lit "MANAGER"
  | .created _ => lit "CONTAINER_CREATED"
  | .started _ _ => lit "CONTAINER_STARTED"
  | .deleted _ => lit "CONTAINER_DELETED"
  | .schedulerEnabled _ => lit "SCHEDULER_ENABLED"
  | .schedulerDisabled => lit "SCHEDULER_DISABLED"
  | .unknownCommand _ => lit "ERROR"

/-- The container the message begins with. -/
def subject : LogEvent → Option Text
  | .created record | .started record _ => some record.id.text
  | .exited id _ _ | .recovered id | .failedToStop id _ | .failedToReap id _ | .stopped id _ | .startFailed id _
  | .deleted id => some id
  | .saveFailedToOpen | .saveFailedToClose | .saveFailedToRename | .restored _ | .schedulerEnabled _ | .schedulerDisabled
  | .unknownCommand _ => none

/-- One of the messages with which `save_metadata` reports a failure. -/
def IsSaveError (entry : LogEvent) : Prop :=
  entry = .saveFailedToOpen ∨ entry = .saveFailedToClose ∨ entry = .saveFailedToRename

theorem IsSaveError.eventType {entry : LogEvent} (error : entry.IsSaveError) : entry.eventType = lit "ERROR" := by
  rcases error with rfl | rfl | rfl <;> rfl

end LogEvent

/-- `infer_record_status`, of a record's event type and container id. -/
def inferRecordStatus (event containerId : Text) : Text :=
  if event = lit "CONTAINER_CREATED" then lit "CREATED"
  else if event = lit "CONTAINER_STARTED" then lit "RUNNING"
  else if event = CONTAINER_STOPPED ∨ event = RESOURCE_LIMIT_HIT then lit "STOPPED"
  else if event = lit "CONTAINER_DELETED" then lit "DELETED"
  else if event = lit "ERROR" then lit "ERROR"
  else if containerId = [] then lit "SYSTEM"
  else lit "-"

end ContainerRuntime
